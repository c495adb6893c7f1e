-- Reading back what is written. Each parser reads the tokens of its level as the expression that
-- they write, as long as nothing goes on with them and the levels inside are at least as many as
-- the tokens.
-- Main statement: tokens that write an expression are read as the expression.
import LazyConfig.Proofs.Source.Spreads
import LazyConfig.Proofs.Source.Writing

namespace LazyConfig

/-! ## Reading -/

/-- The parser reads a value and leaves the rest. -/
def Reads {α : Type} {n : Nat} (x : Except Fault (Parsed α n)) (value : α) (rest : List Token) :
    Prop :=
  ∃ shorter, x = .ok ⟨value, rest, shorter⟩

theorem Reads.bind {α β : Type} {n m : Nat} {x : Except Fault (Parsed α n)}
    {f : Parsed α n → Except Fault (Parsed β m)} {value : α} {value' : β}
    {rest rest' : List Token} (h : Reads x value rest)
    (hf : ∀ shorter, Reads (f ⟨value, rest, shorter⟩) value' rest') :
    Reads (x >>= f) value' rest' := by
  obtain ⟨shorter, rfl⟩ := h
  exact hf shorter

namespace Grammar

theorem reads_symbol {t : Token} {s : String} (h : t.isSymbol s = true) (rest : List Token) :
    Reads (symbol s (t :: rest)) t.span rest := ⟨by simp, by simp [symbol, h]⟩

section

variable {α : Type} {close : String} {item : Parser α} {ts rest left : List Token} {value : α}
  {values : List α} {t : Token}

theorem reads_delimited_nil (h : (peek ts).isSymbol close = true) :
    Reads (delimited close item ts) [] ts := by
  unfold delimited
  exact ⟨by simp, by simp [h]⟩

theorem reads_delimited_last (hstart : (peek ts).isSymbol close = false)
    (h : Reads (item ts) value rest) (hcomma : (peek rest).isSymbol "," = false) :
    Reads (delimited close item ts) [value] rest := by
  obtain ⟨shorter, h⟩ := h
  unfold delimited
  cases rest with
  | nil =>
    simp only [hstart, h]
    exact ⟨_, rfl⟩
  | cons t rest =>
    have ht : t.isSymbol "," = false := hcomma
    simp only [hstart, h, ht]
    exact ⟨_, rfl⟩

theorem reads_delimited_cons (hstart : (peek ts).isSymbol close = false)
    (h : Reads (item ts) value (t :: rest)) (ht : t.isSymbol "," = true)
    (hmore : Reads (delimited close item rest) values left) :
    Reads (delimited close item ts) (value :: values) left := by
  obtain ⟨shorter, h⟩ := h
  obtain ⟨shorter', hmore⟩ := hmore
  unfold delimited
  simp only [hstart, h, ht, hmore]
  exact ⟨_, rfl⟩

end

/-- Items with commas between them are read up to what closes the list. -/
theorem reads_delimited {α γ : Type} {close : String} {item : Parser α} {tokens : γ → List Token}
    {value : γ → α} (hclose : close ≠ ",") {parts : List γ}
    (hstart : ∀ p ∈ parts, ∀ rest, (peek (tokens p ++ rest)).isSymbol close = false)
    (hitem : ∀ p ∈ parts, ∀ s rest, s = "," ∨ s = close →
      Reads (item (tokens p ++ .symbol s :: rest)) (value p) (.symbol s :: rest))
    (rest : List Token) :
    Reads (delimited close item (separated (parts.map tokens) ++ .symbol close :: rest))
      (parts.map value) (.symbol close :: rest) := by
  induction parts with
  | nil => exact reads_delimited_nil (by simp [separated, peek])
  | cons p parts ih =>
    cases parts with
    | nil =>
      exact reads_delimited_last (hstart p (by simp) _) (hitem p (by simp) close rest (.inr rfl))
        (by simp [peek, hclose])
    | cons q parts =>
      have hmore := ih (fun r hr => hstart r (by simp [hr])) fun r hr => hitem r (by simp [hr])
      have hts : separated ((p :: q :: parts).map tokens) =
          tokens p ++ .symbol "," :: separated ((q :: parts).map tokens) := rfl
      rw [hts, List.append_assoc, List.cons_append]
      exact reads_delimited_cons (hstart p (by simp) _)
        (hitem p (by simp) "," _ (.inl rfl)) (by simp) hmore

/-! ## Names of a lambda -/

theorem parameters_separated (names : List String) (rest : List Token) :
    parameters (separated (names.map fun name => [.of .identifier name]) ++ .symbol ")" :: rest) =
      some (names, rest) := by
  induction names with
  | nil =>
    rw [parameters.eq_def]
    simp [separated]
  | cons name names ih =>
    cases names with
    | nil =>
      rw [parameters.eq_def]
      simp [separated]
    | cons name' names =>
      rw [parameters.eq_def]
      simp only [List.map_cons, separated, List.cons_append, List.nil_append] at ih ⊢
      simp [ih]

theorem lambdaHead_separated (names : List String) (rest : List Token) :
    lambdaHead (separated (names.map fun name => [.of .identifier name]) ++
      .symbol ")" :: .symbol "=>" :: rest) = some (names, rest) := by
  simp [lambdaHead, parameters_separated]

/-! ## Levels inside -/

/-- There are at least so many levels inside. -/
def Deep : Nat → Inside → Prop
  | 0, _ => True
  | n + 1, inside => ∃ inner, (∀ ts, inside ts = .ok (ofInside inner)) ∧ Deep n inner

theorem Deep.mono {n m : Nat} {inside : Inside} (h : Deep n inside) (hm : m ≤ n) :
    Deep m inside := by
  induction m generalizing n inside with
  | zero => trivial
  | succ m ih =>
    obtain ⟨n, rfl⟩ : ∃ k, n = k + 1 := ⟨n - 1, by omega⟩
    obtain ⟨inner, hinner, h⟩ := h
    exact ⟨inner, hinner, ih h (by omega)⟩

/-- A grammar with levels inside is the grammar of one level over them. -/
theorem exists_deep (limit n depth : Nat) :
    ∃ inside, levels limit n depth = ofInside inside ∧ Deep n inside := by
  induction n generalizing depth with
  | zero => exact ⟨_, rfl, trivial⟩
  | succ n ih =>
    obtain ⟨inner, hinner, hdeep⟩ := ih (depth + 1)
    exact ⟨_, rfl, inner, fun _ => congrArg Except.ok hinner, hdeep⟩

/-! ## Steps of reading -/

variable {inside : Inside} {ts rest left : List Token} {e value : Expr}

/-- No arguments follow, or the expression takes none. -/
theorem reads_calls_closed (inside : Inside)
    (h : ¬ ((peek rest).isSymbol "(" = true ∧ e.isCallable = true)) :
    Reads (calls inside e rest) e rest := by
  unfold calls
  cases rest with
  | nil => exact ⟨by simp, rfl⟩
  | cons t rest => exact ⟨by simp, if_neg h⟩

theorem reads_calls_stop (inside : Inside) (e : Expr) (h : (peek rest).isSymbol "(" = false) :
    Reads (calls inside e rest) e rest := reads_calls_closed inside (by simp [h])

/-- Arguments follow. -/
theorem reads_calls_step {t close : Token} {args : List Expr} (ht : t.isSymbol "(" = true)
    (hcallable : e.isCallable = true) {inner : Grammar} (hinside : inside ts = .ok inner)
    (hargs : Reads (delimited ")" inner.expression ts) args (close :: rest))
    (hclose : close.isSymbol ")" = true)
    (hmore : Reads (calls inside (.call (e.span.through close.span) e args) rest) value left) :
    Reads (calls inside e (t :: ts)) value left := by
  obtain ⟨_, hargs⟩ := hargs
  obtain ⟨_, hmore⟩ := hmore
  obtain ⟨_, hclose⟩ := reads_symbol hclose rest
  unfold calls
  simp only [ht, hcallable, hinside, hargs, hclose, hmore]
  exact ⟨_, rfl⟩

/-- No operator that binds tightly enough follows. -/
theorem reads_climbFrom_stop {atom : Parser Expr} {least : Nat}
    (h : ∀ op, binaryOp? (peek rest) = some op → op.precedence < least) :
    Reads (climbFrom atom least e rest) e rest := by
  unfold climbFrom
  cases rest with
  | nil => exact ⟨by simp, rfl⟩
  | cons t rest =>
    cases hop : binaryOp? t with
    | none => exact ⟨by simp, by simp [hop]⟩
    | some op => exact ⟨by simp, by simp [hop, h op hop]⟩

theorem binaryOp?_symbol (op : BinaryOp) : binaryOp? (.symbol op.symbol) = some op := by
  simp [binaryOp?, BinaryOp.ofSymbol?_eq_some]

/-- An operator and its right side follow. -/
theorem reads_climbFrom_step {atom : Parser Expr} {least : Nat} {t : Token} {op : BinaryOp}
    {right : Expr} (hop : binaryOp? t = some op) (hleast : least ≤ op.precedence)
    (hright : Reads (climb atom (op.precedence + 1) ts) right rest)
    (hmore : Reads (climbFrom atom least (.binary (e.span.through right.span) op e right) rest)
      value left) :
    Reads (climbFrom atom least e (t :: ts)) value left := by
  obtain ⟨_, hright⟩ := hright
  obtain ⟨_, hmore⟩ := hmore
  unfold climbFrom
  simp only [hop, Nat.not_lt.mpr hleast, hright, hmore]
  exact ⟨_, rfl⟩

theorem reads_climb {atom : Parser Expr} {least : Nat} (h : Reads (atom ts) e rest)
    (hmore : Reads (climbFrom atom least e rest) value left) :
    Reads (climb atom least ts) value left := by
  obtain ⟨_, h⟩ := h
  obtain ⟨_, hmore⟩ := hmore
  unfold climb
  simp only [h, hmore]
  exact ⟨_, rfl⟩

theorem reads_callChain (h : Reads (primary inside ts) e rest)
    (hmore : Reads (calls inside e rest) value left) : Reads (callChain inside ts) value left := by
  unfold callChain
  exact h.bind fun _ => hmore.bind fun _ => ⟨_, rfl⟩

/-- Without a unary operator the operand is a call chain. -/
theorem reads_operand_chain {t : Token} (ht : unaryOp? t = none)
    (h : Reads (callChain inside (t :: ts)) value left) :
    Reads (operand inside (t :: ts)) value left := by
  simpa [operand, ht] using h

/-- A unary operator takes an operand one level inside. -/
theorem reads_operand_unary {t : Token} {op : UnaryOp} (ht : unaryOp? t = some op)
    {inner : Grammar} (hinside : inside ts = .ok inner) (h : Reads (inner.unary ts) e rest) :
    Reads (operand inside (t :: ts)) (.unary (t.span.through e.span) op e) rest := by
  obtain ⟨_, h⟩ := h
  simp only [operand, ht, hinside, bind, Except.bind, h]
  exact ⟨_, rfl⟩

end Grammar

open Grammar

/-! ## What each level reads -/

/-- Tokens at a level are read as the expression by the parsers that reach the level, if there are
as many levels inside as tokens and what follows does not go on with them. -/
structure Readable (level : Nat) (ts : List Token) (e : Expr) : Prop where
  chain {inside : Inside} {rest left : List Token} {value : Expr} : level = 8 →
    Deep ts.length inside → Reads (calls inside e rest) value left →
    Reads (callChain inside (ts ++ rest)) value left
  operand {inside : Inside} {rest : List Token} : 7 ≤ level → Deep ts.length inside →
    (peek rest).isSymbol "(" = false → Reads (Grammar.operand inside (ts ++ rest)) e rest
  climb {inside : Inside} {least : Nat} {rest left : List Token} {value : Expr} : least ≤ level →
    Deep ts.length inside → (peek rest).isSymbol "(" = false →
    (∀ op, binaryOp? (peek rest) = some op → op.precedence ≤ level) →
    Reads (climbFrom (Grammar.operand inside) least e rest) value left →
    Reads (Grammar.climb (Grammar.operand inside) least (ts ++ rest)) value left

namespace Readable

variable {level : Nat} {ts rest : List Token} {e : Expr} {inside : Inside}

/-- A call chain is an operand, and an operand is what climbing starts from. -/
theorem of_chain {t : Token} {more : List Token} (hts : ts = t :: more)
    (ht : unaryOp? t = none)
    (h : ∀ {inside : Inside} {rest left : List Token} {value : Expr}, Deep ts.length inside →
      Reads (calls inside e rest) value left → Reads (callChain inside (ts ++ rest)) value left) :
    Readable 8 ts e := by
  have hoperand : ∀ {inside : Inside} {rest : List Token}, Deep ts.length inside →
      (peek rest).isSymbol "(" = false → Reads (Grammar.operand inside (ts ++ rest)) e rest := by
    intro inside rest hdeep hrest
    have hread := h hdeep (reads_calls_stop inside e hrest)
    subst hts
    exact reads_operand_chain ht hread
  exact ⟨fun _ => h, fun _ => hoperand, fun _ hdeep hrest _ => reads_climb (hoperand hdeep hrest)⟩

/-- A primary expression is a call chain. -/
theorem of_primary {t : Token} {more : List Token} (hts : ts = t :: more)
    (ht : unaryOp? t = none)
    (h : ∀ {inside : Inside} {rest : List Token}, Deep ts.length inside →
      Reads (primary inside (ts ++ rest)) e rest) : Readable 8 ts e :=
  of_chain hts ht fun hdeep hmore => reads_callChain (h hdeep) hmore

/-- What stands alone is read as a whole expression. -/
theorem expression (h : Readable level ts e) (hdeep : Deep ts.length inside)
    (hrest : (peek rest).isSymbol "(" = false) (hop : binaryOp? (peek rest) = none) :
    Reads ((ofInside inside).expression (ts ++ rest)) e rest :=
  h.climb (Nat.zero_le _) hdeep hrest (by simp [hop])
    (reads_climbFrom_stop (by simp [hop]))

end Readable

/-! ## Brackets -/

section

variable {inner : Grammar} {ts rest : List Token} {e : Expr} {inside : Inside} {t : Token}

theorem reads_group {close : Token} (hhead : lambdaHead ts = none)
    (h : Reads (inner.expression ts) e (close :: rest)) (hclose : close.isSymbol ")" = true) :
    Reads (group inner t ts) e rest := by
  unfold Grammar.group
  split
  · next hsome =>
    rw [hhead] at hsome
    cases hsome
  · exact h.bind fun _ => (reads_symbol hclose rest).bind fun _ => ⟨_, rfl⟩

theorem reads_lambda {names : List String} {after : List Token}
    (hhead : lambdaHead ts = some (names, after)) (h : Reads (inner.expression after) e rest) :
    Reads (group inner t ts) (.lambda (t.span.through e.span) names e) rest := by
  unfold Grammar.group
  split
  · next hsome =>
    rw [hhead] at hsome
    cases hsome
    exact h.bind fun _ => ⟨_, rfl⟩
  · next hnone =>
    rw [hhead] at hnone
    cases hnone

/-- An opening bracket is read one level inside. -/
theorem reads_primary_open (hinside : ∀ ts, inside ts = .ok inner) :
    (t.isSymbol "(" = true → Reads (group inner t ts) e rest →
      Reads (primary inside (t :: ts)) e rest) ∧
    (t.isSymbol "[" = true → Reads (Grammar.array inner t ts) e rest →
      Reads (primary inside (t :: ts)) e rest) ∧
    (t.isSymbol "\x7b" = true → Reads (Grammar.object inner t ts) e rest →
      Reads (primary inside (t :: ts)) e rest) := by
  refine ⟨fun ht h => ?_, fun ht h => ?_, fun ht h => ?_⟩
  all_goals
    rw [Token.isSymbol_iff] at ht
    simpa [primary, ht, hinside, bind, Except.bind] using h

end

theorem length_le_separated {ts : List Token} {all : List (List Token)} (h : ts ∈ all) :
    ts.length ≤ (separated all).length := by
  induction all with
  | nil => cases h
  | cons us all ih =>
    cases all with
    | nil =>
      rw [List.mem_singleton] at h
      exact Nat.le_of_eq (congrArg List.length h)
    | cons vs all =>
      rw [separated, List.length_append, List.length_cons]
      · rcases List.mem_cons.mp h with rfl | h
        · omega
        · have := ih h
          omega
      · simp

/-- A closing symbol or a comma ends an expression. -/
theorem ends_of_symbol {s : String} (hs : s = "," ∨ s = ")" ∨ s = "]" ∨ s = "\x7d")
    (rest : List Token) :
    (peek (.symbol s :: rest)).isSymbol "(" = false ∧
    binaryOp? (peek (.symbol s :: rest)) = none := by
  rcases hs with rfl | rfl | rfl | rfl <;> exact ⟨rfl, rfl⟩

/-- Pieces with commas between them are read up to what closes the list. -/
theorem reads_pieces {ps : List Piece} {inside : Inside} {close : String}
    (hclose : close = ")" ∨ close = "]") (h : ∀ p ∈ ps, Writes p.level p.tokens p.expr)
    (hread : ∀ p ∈ ps, Readable p.level p.tokens p.expr)
    (hdeep : Deep (separated (ps.map (·.tokens))).length inside) (rest : List Token) :
    Reads (delimited close (ofInside inside).expression
      (separated (ps.map (·.tokens)) ++ .symbol close :: rest)) (ps.map (·.expr))
      (.symbol close :: rest) := by
  refine reads_delimited ?_ ?_ ?_ rest
  · rcases hclose with rfl | rfl <;> decide
  · intro p hp rest
    obtain ⟨t, more, hts, ht, -⟩ := (h p hp).exists_cons
    rw [hts, List.cons_append]
    rcases hclose with rfl | rfl
    · exact ht.1
    · exact ht.2.1
  · intro p hp s rest hs
    have hend := ends_of_symbol (s := s) (by grind) rest
    exact (hread p hp).expression
      (hdeep.mono (length_le_separated (List.mem_map_of_mem hp))) hend.1 hend.2

/-- The token is read as the key. -/
def ReadAsKey (t : Token) (key : String) : Prop :=
  (t.kind = .identifier ∧ t.text = key) ∨
    ((t.kind = .string ∨ t.kind = .template) ∧ contents t = .ok key)

theorem WritesKey.readAsKey {t : Token} {key : String} (h : WritesKey t key) : ReadAsKey t key :=
  h.imp_right fun ⟨hkind, hkey⟩ => ⟨.inl hkind, by simp [contents, hkey]⟩

theorem reads_property {inner : Grammar} {colon : Token} {key : String} {ts rest : List Token}
    {e : Expr} (hcolon : colon.isSymbol ":" = true) (h : Reads (inner.expression ts) e rest) :
    Reads (Grammar.property inner key (colon :: ts)) (.property key e) rest := by
  unfold Grammar.property
  exact (reads_symbol hcolon ts).bind fun _ => h.bind fun _ => ⟨_, rfl⟩

theorem reads_member_key {inner : Grammar} {t colon : Token} {key : String} {ts rest : List Token}
    {m : Member} (hkey : ReadAsKey t key) (hcolon : colon.isSymbol ":" = true)
    (h : Reads (Grammar.property inner key (colon :: ts)) m rest) :
    Reads (Grammar.member inner (t :: colon :: ts)) m rest := by
  have hopen : colon.isSymbol "(" = false := by
    by_contra hopen
    have hsame := Token.eq_of_isSymbol hcolon (Bool.not_eq_false _ ▸ hopen)
    exact absurd hsame (by decide)
  rcases hkey with ⟨hkind, rfl⟩ | ⟨hkind | hkind, hkey⟩
  · simpa [Grammar.member, hkind, peek, hopen] using h
  · simpa [Grammar.member, hkind, hkey, bind, Except.bind] using h
  · simpa [Grammar.member, hkind, hkey, bind, Except.bind] using h

theorem reads_member_spread {inner : Grammar} {t : Token} {ts rest : List Token} {e : Expr}
    (ht : t.kind = .identifier) (hopen : (peek ts).isSymbol "(" = true)
    (h : Reads (inner.chain (t :: ts)) e rest) :
    Reads (Grammar.member inner (t :: ts)) (.spread e) rest := by
  simp only [Grammar.member, ht, hopen, if_true]
  exact h.bind fun _ => ⟨_, rfl⟩

theorem reads_member {m : MemberPiece} {inside : Inside} (hp : m.Proper)
    (hread : Readable m.level m.tokens m.expr) (hdeep : Deep m.all.length inside) {s : String}
    (hs : s = "," ∨ s = "\x7d") (rest : List Token) :
    Reads (Grammar.member (ofInside inside) (m.all ++ .symbol s :: rest)) m.member
      (.symbol s :: rest) := by
  have hend := ends_of_symbol (s := s) (by grind) rest
  obtain ⟨⟨level, tokens, e⟩, _ | ⟨t, key⟩⟩ := m
  · obtain ⟨rfl, name, more, rfl⟩ := hp
    exact reads_member_spread rfl rfl (hread.chain rfl hdeep (reads_calls_stop _ _ hend.1))
  · exact reads_member_key hp.readAsKey rfl
      (reads_property rfl (hread.expression (hdeep.mono (Nat.le_add_right _ 2)) hend.1 hend.2))

theorem reads_members {ms : List MemberPiece} {inside : Inside} (hp : ∀ m ∈ ms, m.Proper)
    (hread : ∀ m ∈ ms, Readable m.level m.tokens m.expr)
    (hdeep : Deep (separated (ms.map (·.all))).length inside) (rest : List Token) :
    Reads (delimited "\x7d" (Grammar.member (ofInside inside))
      (separated (ms.map (·.all)) ++ .symbol "\x7d" :: rest)) (ms.map (·.member))
      (.symbol "\x7d" :: rest) := by
  refine reads_delimited (by decide) ?_ ?_ rest
  · intro m hm rest
    have hproper := hp m hm
    obtain ⟨⟨level, tokens, e⟩, _ | ⟨t, key⟩⟩ := m
    · obtain ⟨-, name, more, rfl⟩ := hproper
      exact Token.isSymbol_of_ne (by simp) _ _
    · rcases hproper with ⟨hkind, -⟩ | ⟨hkind, -⟩
      · simp [MemberPiece.all, peek, Token.isSymbol, hkind]
      · simp [MemberPiece.all, peek, Token.isSymbol, hkind]
  · intro m hm s rest hs
    exact reads_member (hp m hm) (hread m hm)
      (hdeep.mono (length_le_separated (List.mem_map_of_mem hm))) hs rest

/-! ## All that is written is read -/

theorem Writes.span_eq {level : Nat} {ts : List Token} {e : Expr} (h : Writes level ts e) :
    e.span = default := by
  induction h with
  | word text =>
    unfold Grammar.word
    repeat' split
    all_goals rfl
  | group _ _ ih => exact ih
  | _ => rfl

namespace Readable

variable {level level' : Nat} {ts ts' : List Token} {e e' : Expr}

theorem call {t : Token} {more : List Token} (he : Readable 8 ts e) (hspan : e.span = default)
    (hts : ts = t :: more) (ht : unaryOp? t = none) (hcallable : e.isCallable = true)
    {ps : List Piece} (h : ∀ p ∈ ps, Writes p.level p.tokens p.expr)
    (hread : ∀ p ∈ ps, Readable p.level p.tokens p.expr) :
    Readable 8 (ts ++ .symbol "(" :: (separated (ps.map (·.tokens)) ++ [.symbol ")"]))
      (.call default e (ps.map (·.expr))) := by
  refine .of_chain (t := t) (by rw [hts]; rfl) ht fun {inside rest left value} hdeep hmore => ?_
  have hinside : Deep ((separated (ps.map (·.tokens))).length + 1) inside :=
    hdeep.mono (by simp only [List.length_append, List.length_cons]; omega)
  obtain ⟨inner, hinner, hinside⟩ := hinside
  have hps := reads_pieces (.inl rfl) h hread hinside rest
  rw [List.append_assoc, List.cons_append, List.append_assoc]
  refine he.chain rfl (hdeep.mono (by simp)) (reads_calls_step rfl hcallable (hinner _) hps rfl ?_)
  rw [hspan]
  exact hmore

/-- The body of a lambda goes on as far as it can, so no operator may follow a lambda. -/
theorem lambda (h : Readable level ts e) (hspan : e.span = default) (names : List String) :
    Readable 0 (.symbol "(" :: (separated (names.map fun name => [.of .identifier name]) ++
      .symbol ")" :: .symbol "=>" :: ts)) (.lambda default names e) := by
  refine ⟨by simp, by simp, fun {inside least rest left value} hleast hdeep hrest hops hmore => ?_⟩
  have hinside : Deep (ts.length + 1) inside :=
    hdeep.mono (by simp only [List.length_append, List.length_cons]; omega)
  obtain ⟨inner, hinner, hinside⟩ := hinside
  have hnone : binaryOp? (peek rest) = none := by
    cases hop : binaryOp? (peek rest) with
    | none => rfl
    | some op =>
      have := hops op hop
      have := op.precedence_le
      omega
  have hbody := h.expression hinside hrest hnone
  have hchain := reads_callChain
    ((reads_primary_open (t := .symbol "(") hinner).1 rfl
      (reads_lambda (lambdaHead_separated names _) hbody))
    (reads_calls_stop _ _ hrest)
  rw [hspan] at hchain
  rw [List.cons_append, List.append_assoc, List.cons_append, List.cons_append]
  exact reads_climb (reads_operand_chain rfl hchain) hmore

/-- Operators group to the left: the right operand binds more tightly than the operator. -/
theorem binary {op : BinaryOp} (h : Readable level ts e) (h' : Readable level' ts' e')
    (hspan : e.span = default) (hspan' : e'.span = default) (hleft : op.precedence ≤ level)
    (hright : op.precedence < level') :
    Readable op.precedence (ts ++ .symbol op.symbol :: ts') (.binary default op e e') := by
  have hsix := op.precedence_le
  refine ⟨fun h8 => by omega, fun h7 => by omega, fun {inside least rest left value} hleast hdeep
    hrest hops hmore => ?_⟩
  have hop : ∀ op', binaryOp? (peek (.symbol op.symbol :: (ts' ++ rest))) = some op' → op' = op :=
    fun op' hop' => Option.some.inj (hop'.symm.trans (binaryOp?_symbol op))
  have hright' : Reads (Grammar.climb (Grammar.operand inside) (op.precedence + 1) (ts' ++ rest))
      e' rest := by
    refine h'.climb hright (hdeep.mono (by simp; omega)) hrest (fun op' hop' => ?_)
      (reads_climbFrom_stop fun op' hop' => Nat.lt_succ_of_le (hops op' hop'))
    have := hops op' hop'
    omega
  rw [List.append_assoc, List.cons_append]
  refine h.climb (by omega) (hdeep.mono (by simp)) ?_ ?_
    (reads_climbFrom_step (binaryOp?_symbol op) hleast hright' ?_)
  · simp [peek, op.symbol_ne]
  · intro op' hop'
    rw [hop op' hop']
    exact hleft
  · rw [hspan, hspan']
    exact hmore

theorem unary (h : Readable level ts e) (hspan : e.span = default) (op : UnaryOp)
    (hlevel : 7 ≤ level) : Readable 7 (.symbol op.symbol :: ts) (.unary default op e) := by
  have hoperand : ∀ {inside : Inside} {rest : List Token},
      Deep (.symbol op.symbol :: ts : List Token).length inside →
      (peek rest).isSymbol "(" = false →
      Reads (Grammar.operand inside (.symbol op.symbol :: ts ++ rest))
        (.unary default op e) rest := by
    intro inside rest hdeep hrest
    obtain ⟨inner, hinner, hdeep⟩ := hdeep
    have hop : unaryOp? (.symbol op.symbol) = some op := by cases op <;> rfl
    have hread := reads_operand_unary hop (hinner (ts ++ rest)) (h.operand hlevel hdeep hrest)
    rw [hspan] at hread
    exact hread
  exact ⟨by simp, fun _ => hoperand, fun _ hdeep hrest _ => reads_climb (hoperand hdeep hrest)⟩

end Readable

theorem Writes.readable {level : Nat} {ts : List Token} {e : Expr} (h : Writes level ts e) :
    Readable level ts e := by
  induction h with
  | number text =>
    exact .of_primary rfl rfl fun _ => ⟨by simp, by simp [primary]; rfl⟩
  | string h =>
    exact .of_primary rfl rfl fun _ =>
      ⟨by simp, by simp [primary, contents, h, bind, Except.bind]; rfl⟩
  | blob form text =>
    exact .of_primary rfl rfl fun _ => ⟨by simp, by simp [primary]; rfl⟩
  | word text =>
    exact .of_primary rfl rfl fun _ => ⟨by simp, by simp [primary]⟩
  | relative dots name =>
    exact .of_primary rfl rfl fun _ =>
      ⟨Nat.lt_succ_of_lt (Nat.lt_succ_self _), by simp [primary, Grammar.relative]; rfl⟩
  | @group level ts e hlevel h ih =>
    refine .of_primary rfl rfl fun {inside rest} hdeep => ?_
    obtain ⟨inner, hinner, hdeep⟩ := hdeep
    rw [List.cons_append, List.append_assoc]
    have hend := ends_of_symbol (s := ")") (by simp) rest
    have hread := ih.expression (hdeep.mono (by simp)) hend.1 hend.2
    exact (reads_primary_open hinner).1 rfl (reads_group (h.lambdaHead_eq_none hlevel _) hread rfl)
  | array ps h ih =>
    refine .of_primary rfl rfl fun {inside rest} hdeep => ?_
    obtain ⟨inner, hinner, hdeep⟩ := hdeep
    rw [List.cons_append, List.append_assoc]
    refine (reads_primary_open hinner).2.1 rfl ?_
    have hps := reads_pieces (.inr rfl) h ih (hdeep.mono (by simp)) rest
    exact hps.bind fun _ => (reads_symbol (t := .symbol "]") rfl rest).bind fun _ => ⟨_, rfl⟩
  | object ms hp h ih =>
    refine .of_primary rfl rfl fun {inside rest} hdeep => ?_
    obtain ⟨inner, hinner, hdeep⟩ := hdeep
    rw [List.cons_append, List.append_assoc]
    refine (reads_primary_open hinner).2.2 rfl ?_
    have hms := reads_members hp ih (hdeep.mono (by simp)) rest
    exact hms.bind fun _ => (reads_symbol (t := .symbol "\x7d") rfl rest).bind fun _ => ⟨_, rfl⟩
  | call ps hcallable he h ihe ih =>
    obtain ⟨t, more, hts, -, ht⟩ := he.exists_cons
    exact ihe.call he.span_eq hts (ht rfl) hcallable h ih
  | lambda names h ih => exact ih.lambda h.span_eq names
  | binary op hleft hright h h' ih ih' => exact ih.binary ih' h.span_eq h'.span_eq hleft hright
  | unary op hlevel h ih => exact ih.unary h.span_eq op hlevel

/-- Tokens that write an expression are read as the expression, wherever they stand. -/
theorem Writes.parseTokens {level limit : Nat} {ts found : List Token} {e : Expr}
    (h : Writes level ts e) (hlimit : ts.length ≤ limit)
    (hfound : found.map Token.bare = ts.map Token.bare ++ [.of .eof ""]) :
    ∃ e', LazyConfig.parseTokens limit found = .ok e' ∧ e'.bare = e.bare := by
  obtain ⟨inside, hlevels, hdeep⟩ := exists_deep limit limit 0
  have hread : LazyConfig.parseTokens limit (ts ++ [Token.of .eof ""]) = .ok e := by
    have hend : (peek [.of .eof ""]).isSymbol "(" = false := rfl
    obtain ⟨_, hread⟩ := h.readable.expression (hdeep.mono hlimit) hend rfl
    rw [← hlevels] at hread
    simp [LazyConfig.parseTokens, upTo, hread, bind, Except.bind, peek]
  have hbare : found.map Token.bare = (ts ++ [Token.of .eof ""]).map Token.bare := by
    rw [hfound, List.map_append]
    rfl
  exact exists_parseTokens_of_bare hread hbare

end LazyConfig
