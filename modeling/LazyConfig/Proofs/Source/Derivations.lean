-- What is read, as derivations. A derivation goes from a list of tokens to an expression and the
-- tokens that are left, with one rule for each way to build a tree, and counts the levels of
-- nesting below it. The rules look at the tokens that follow as the parsers do, so they leave no
-- choice.
-- Main statement: the parsers read exactly what there is a derivation of.
import LazyConfig.Proofs.Source.Outcomes
import LazyConfig.Proofs.Source.Precedence
import LazyConfig.Proofs.Source.Reading
import LazyConfig.Proofs.Source.Trees

namespace LazyConfig

namespace Grammar

/-! ## Items of a list -/

/-- An item of a list: the tokens from its first one on, what they are read as, and the tokens that
are left. -/
structure Item (α : Type) where
  tokens : List Token
  value : α
  rest : List Token

/-- The tokens go on with the items, with commas between them and perhaps after the last, up to what
closes the list. -/
inductive Listed {α : Type} (close : String) : List Token → List (Item α) → List Token → Prop
  | done {ts : List Token} (h : (peek ts).isSymbol close = true) : Listed close ts [] ts
  | last {i : Item α} (hopen : (peek i.tokens).isSymbol close = false)
      (hcomma : (peek i.rest).isSymbol "," = false) : Listed close i.tokens [i] i.rest
  | more {i : Item α} {is : List (Item α)} {t : Token} {after rest : List Token}
      (hopen : (peek i.tokens).isSymbol close = false) (hafter : i.rest = t :: after)
      (hcomma : t.isSymbol "," = true) (h : Listed close after is rest) :
      Listed close i.tokens (i :: is) rest

/-- A member of an object: an expression, after a key and a colon unless it is spread. -/
structure MemberItem extends Item Expr where
  key? : Option (Token × Token × String)

instance : Inhabited MemberItem := ⟨⟨⟨[], default, []⟩, none⟩⟩

/-! ## Rules -/

/-- The rules for expressions. -/
inductive Rule where
  /-- A literal, a name, or something in brackets. -/
  | primary
  /-- A primary expression with some of its calls. -/
  | calls
  /-- A primary expression with all of its calls. -/
  | chain
  /-- A call chain under unary operators. -/
  | operand
  /-- An operand with some of the operators after it that bind at least so tightly. -/
  | operators (least : Nat)
  /-- An operand with all of the operators after it that bind at least so tightly. -/
  | climb (least : Nat)

namespace MemberItem

/-- All of the member. -/
def item (m : MemberItem) : Item Member :=
  match m.key? with
  | some (t, colon, key) => ⟨t :: colon :: m.tokens, .property key m.value, m.rest⟩
  | none => ⟨m.tokens, .spread m.value, m.rest⟩

/-- The rule for the expression of the member. -/
def rule (m : MemberItem) : Rule :=
  match m.key? with
  | some _ => .climb 0
  | none => .chain

/-- The key is written by its token. What is spread starts with a name and a parenthesis. -/
def Proper (m : MemberItem) : Prop :=
  match m.key? with
  | some (t, colon, key) => ReadAsKey t key ∧ colon.isSymbol ":" = true
  | none => ∃ t more, m.tokens = t :: more ∧ t.kind = .identifier ∧ (peek more).isSymbol "(" = true

end MemberItem

/-- By a rule, with so many levels of nesting, the tokens go on with an expression, and these are
left. -/
inductive Derives : (levels : Nat) → Rule → List Token → Expr → List Token → Prop
  | number {n : Nat} {t : Token} {rest : List Token} (ht : t.kind = .number) :
      Derives n .primary (t :: rest) (.number t.span t.text) rest
  | string {n : Nat} {t : Token} {rest : List Token} {text : String}
      (ht : t.kind = .string ∨ t.kind = .template) (htext : contents t = .ok text) :
      Derives n .primary (t :: rest) (.string t.span text) rest
  | blob {n : Nat} {t : Token} {rest : List Token} {form : BlobForm} (ht : t.kind = .blob form) :
      Derives n .primary (t :: rest) (.blob t.span form (unwrap 4 t.text)) rest
  | word {n : Nat} {t : Token} {rest : List Token} (ht : t.kind = .identifier) :
      Derives n .primary (t :: rest) (word t) rest
  | relative {n : Nat} {dots t : Token} {rest : List Token} (hdots : dots.kind = .dots)
      (ht : t.kind = .identifier) :
      Derives n .primary (dots :: t :: rest)
        (.relative (dots.span.through t.span) (dots.text.length - 1) t.text) rest
  | group {n : Nat} {t close : Token} {ts rest : List Token} {e : Expr} (ht : t.isSymbol "(" = true)
      (hhead : lambdaHead ts = none) (h : Derives n (.climb 0) ts e (close :: rest))
      (hclose : close.isSymbol ")" = true) : Derives (n + 1) .primary (t :: ts) e rest
  | lambda {n : Nat} {t : Token} {ts after rest : List Token} {params : List String} {body : Expr}
      (ht : t.isSymbol "(" = true) (hhead : lambdaHead ts = some (params, after))
      (h : Derives n (.climb 0) after body rest) :
      Derives (n + 1) .primary (t :: ts) (.lambda (t.span.through body.span) params body) rest
  | array {n : Nat} {t close : Token} {ts rest : List Token} {items : List (Item Expr)}
      (ht : t.isSymbol "[" = true) (hlist : Listed "]" ts items (close :: rest))
      (h : ∀ i ∈ items, Derives n (.climb 0) i.tokens i.value i.rest)
      (hclose : close.isSymbol "]" = true) :
      Derives (n + 1) .primary (t :: ts)
        (.array (t.span.through close.span) (items.map (·.value))) rest
  | object {n : Nat} {t close : Token} {ts rest : List Token} {members : List MemberItem}
      (ht : t.isSymbol "\x7b" = true)
      (hlist : Listed "\x7d" ts (members.map (·.item)) (close :: rest))
      (hproper : ∀ m ∈ members, m.Proper)
      (h : ∀ m ∈ members, Derives n m.rule m.tokens m.value m.rest)
      (hclose : close.isSymbol "\x7d" = true) :
      Derives (n + 1) .primary (t :: ts)
        (.object (t.span.through close.span) (members.map (·.item.value))) rest
  | single {n : Nat} {ts rest : List Token} {e : Expr} (h : Derives n .primary ts e rest) :
      Derives n .calls ts e rest
  | call {n : Nat} {t close : Token} {ts after rest : List Token} {callee : Expr}
      {items : List (Item Expr)} (h : Derives (n + 1) .calls ts callee (t :: after))
      (ht : t.isSymbol "(" = true) (hcallable : callee.isCallable = true)
      (hlist : Listed ")" after items (close :: rest))
      (hitems : ∀ i ∈ items, Derives n (.climb 0) i.tokens i.value i.rest)
      (hclose : close.isSymbol ")" = true) :
      Derives (n + 1) .calls ts
        (.call (callee.span.through close.span) callee (items.map (·.value))) rest
  | chain {n : Nat} {ts rest : List Token} {e : Expr} (h : Derives n .calls ts e rest)
      (hstop : ¬ ((peek rest).isSymbol "(" = true ∧ e.isCallable = true)) :
      Derives n .chain ts e rest
  | plain {n : Nat} {ts rest : List Token} {e : Expr} (h : Derives n .chain ts e rest)
      (hfirst : unaryOp? (peek ts) = none) : Derives n .operand ts e rest
  | unary {n : Nat} {t : Token} {ts rest : List Token} {e : Expr} {op : UnaryOp}
      (hop : unaryOp? t = some op) (h : Derives n .operand ts e rest) :
      Derives (n + 1) .operand (t :: ts) (.unary (t.span.through e.span) op e) rest
  | first {n : Nat} {ts rest : List Token} {e : Expr} (least : Nat)
      (h : Derives n .operand ts e rest) : Derives n (.operators least) ts e rest
  | binary {n least : Nat} {t : Token} {ts after rest : List Token} {l r : Expr} {op : BinaryOp}
      (h : Derives n (.operators least) ts l (t :: after)) (hop : binaryOp? t = some op)
      (hleast : least ≤ op.precedence)
      (hright : Derives n (.climb (op.precedence + 1)) after r rest) :
      Derives n (.operators least) ts (.binary (l.span.through r.span) op l r) rest
  | climb {n least : Nat} {ts rest : List Token} {e : Expr}
      (h : Derives n (.operators least) ts e rest) (hrests : Rests least rest) :
      Derives n (.climb least) ts e rest

/-- The item is a member, with a derivation of its expression. -/
def IsMember (n : Nat) (i : Item Member) : Prop :=
  ∃ m : MemberItem, m.item = i ∧ m.Proper ∧ Derives n m.rule m.tokens m.value m.rest

/-- An object is derived from its members. -/
theorem Derives.of_members {n : Nat} {t close : Token} {ts rest : List Token}
    {items : List (Item Member)} (ht : t.isSymbol "\x7b" = true)
    (hlist : Listed "\x7d" ts items (close :: rest)) (hitems : ∀ i ∈ items, IsMember n i)
    (hclose : close.isSymbol "\x7d" = true) :
    Derives (n + 1) .primary (t :: ts)
      (.object (t.span.through close.span) (items.map (·.value))) rest := by
  obtain ⟨members, rfl, hmembers⟩ : ∃ members : List MemberItem, members.map (·.item) = items ∧
      ∀ m ∈ members, m.Proper ∧ Derives n m.rule m.tokens m.value m.rest := by
    choose! member hmember using hitems
    refine ⟨items.map member, ?_, by simpa using fun i hi => (hmember i hi).2⟩
    rw [List.map_map]
    exact (List.map_congr_left fun i hi => (hmember i hi).1).trans (List.map_id items)
  rw [List.map_map]
  exact .object ht hlist (fun m hm => (hmembers m hm).1) (fun m hm => (hmembers m hm).2) hclose

/-! ## What is read is derived -/

section

variable {α : Type} {n : Nat} {t : Token} {ts rest : List Token} {e : Expr}

theorem derives_symbol {s : String} {a : Parsed Span ts.length} (h : symbol s ts = .ok a) :
    ∃ t, ts = t :: a.rest ∧ t.isSymbol s = true ∧ a.value = t.span := by
  cases ts with
  | nil => cases h
  | cons t rest =>
    simp only [symbol] at h
    split at h
    · next ht =>
      cases h
      exact ⟨t, rfl, ht, rfl⟩
    · cases h

theorem derives_delimited {close : String} {item : Parser α} {Q : Item α → Prop}
    (hitem : ∀ ts a, item ts = .ok a → Q ⟨ts, a.value, a.rest⟩) {ts : List Token}
    {a : Parsed (List α) (ts.length + 1)} (h : delimited close item ts = .ok a) :
    ∃ items : List (Item α), Listed close ts items a.rest ∧ a.value = items.map (·.value) ∧
      ∀ i ∈ items, Q i := by
  fun_induction delimited close item ts with
  | case1 ts hclose =>
    cases h
    exact ⟨[], .done hclose, rfl, by simp⟩
  | case2 | case4 => cases h
  | case3 ts hopen first shorter hx =>
    cases h
    exact ⟨[⟨ts, first, []⟩], .last (i := ⟨ts, first, []⟩) (by simpa using hopen) rfl, rfl,
      by simpa using hitem ts _ hx⟩
  | case5 ts hopen first t rest shorter hx hcomma others left shorter' hmore ih =>
    cases h
    obtain ⟨items, hlist, rfl, hitems⟩ := ih hmore
    refine ⟨⟨ts, first, t :: rest⟩ :: items,
      .more (i := ⟨ts, first, t :: rest⟩) (by simpa using hopen) rfl hcomma hlist, rfl, ?_⟩
    exact List.forall_mem_cons.mpr ⟨hitem ts _ hx, hitems⟩
  | case6 ts hopen first t rest shorter hx hcomma =>
    cases h
    exact ⟨[⟨ts, first, t :: rest⟩], .last (i := ⟨ts, first, t :: rest⟩) (by simpa using hopen)
      (by simpa [peek] using hcomma), rfl, by simpa using hitem ts _ hx⟩

/-- A grammar with so many levels of nesting reads what is derived. -/
structure Sound (n : Nat) (g : Grammar) : Prop where
  expression {ts : List Token} {a : Parsed Expr ts.length} : g.expression ts = .ok a →
    Derives n (.climb 0) ts a.value a.rest
  unary {ts : List Token} {a : Parsed Expr ts.length} : g.unary ts = .ok a →
    Derives n .operand ts a.value a.rest
  chain {ts : List Token} {a : Parsed Expr ts.length} : g.chain ts = .ok a →
    Derives n .chain ts a.value a.rest

/-- The level inside, where there is one, has one level of nesting less. -/
def InsideSound (n : Nat) (inside : Inside) : Prop :=
  ∀ ts g, inside ts = .ok g → ∃ m, n = m + 1 ∧ Sound m g

variable {g : Grammar} (hg : Sound n g)

include hg

theorem Sound.group (ht : t.isSymbol "(" = true) {a : Parsed Expr (ts.length + 1)}
    (h : g.group t ts = .ok a) : Derives (n + 1) .primary (t :: ts) a.value a.rest := by
  unfold Grammar.group at h
  split at h
  · next hhead =>
    obtain ⟨b, hb, h⟩ := Lexer.bind_ok h
    cases h
    exact .lambda ht hhead (hg.expression hb)
  · next hhead =>
    obtain ⟨b, hb, h⟩ := Lexer.bind_ok h
    obtain ⟨c, hc, h⟩ := Lexer.bind_ok h
    cases h
    obtain ⟨close, hrest, hclose, -⟩ := derives_symbol hc
    exact .group ht hhead (hrest ▸ hg.expression hb) hclose

theorem Sound.array (ht : t.isSymbol "[" = true) {a : Parsed Expr (ts.length + 1)}
    (h : g.array t ts = .ok a) : Derives (n + 1) .primary (t :: ts) a.value a.rest := by
  unfold Grammar.array at h
  obtain ⟨b, hb, h⟩ := Lexer.bind_ok h
  obtain ⟨c, hc, h⟩ := Lexer.bind_ok h
  cases h
  obtain ⟨items, hlist, hvalues, hitems⟩ := derives_delimited
    (Q := fun i => Derives n (.climb 0) i.tokens i.value i.rest) (fun _ _ => hg.expression) hb
  obtain ⟨close, hrest, hclose, hspan⟩ := derives_symbol hc
  rw [hrest] at hlist
  simp only [hvalues, hspan]
  exact .array ht hlist hitems hclose

theorem Sound.property {key : String} (ht : ReadAsKey t key) {a : Parsed Member (ts.length + 1)}
    (h : g.property key ts = .ok a) : IsMember n ⟨t :: ts, a.value, a.rest⟩ := by
  unfold Grammar.property at h
  obtain ⟨b, hb, h⟩ := Lexer.bind_ok h
  obtain ⟨c, hc, h⟩ := Lexer.bind_ok h
  cases h
  obtain ⟨colon, hrest, hcolon, -⟩ := derives_symbol hb
  refine ⟨⟨⟨b.rest, c.value, c.rest⟩, some (t, colon, key)⟩, ?_, ⟨ht, hcolon⟩, hg.expression hc⟩
  simp only [MemberItem.item, hrest]

theorem Sound.member {a : Parsed Member ts.length} (h : g.member ts = .ok a) :
    IsMember n ⟨ts, a.value, a.rest⟩ := by
  cases ts with
  | nil => cases h
  | cons t ts =>
    simp only [Grammar.member] at h
    split at h
    · next hkind =>
      split at h
      · next hopen =>
        obtain ⟨b, hb, h⟩ := Lexer.bind_ok h
        cases h
        exact ⟨⟨⟨t :: ts, b.value, b.rest⟩, none⟩, rfl, ⟨t, ts, rfl, hkind, hopen⟩, hg.chain hb⟩
      · exact hg.property (.inl ⟨hkind, rfl⟩) h
    · next hkind =>
      obtain ⟨key, hkey, h⟩ := Lexer.bind_ok h
      exact hg.property (.inr ⟨.inl hkind, hkey⟩) h
    · next hkind =>
      obtain ⟨key, hkey, h⟩ := Lexer.bind_ok h
      exact hg.property (.inr ⟨.inr hkind, hkey⟩) h
    · cases h

theorem Sound.object (ht : t.isSymbol "\x7b" = true) {a : Parsed Expr (ts.length + 1)}
    (h : g.object t ts = .ok a) : Derives (n + 1) .primary (t :: ts) a.value a.rest := by
  unfold Grammar.object at h
  obtain ⟨b, hb, h⟩ := Lexer.bind_ok h
  obtain ⟨c, hc, h⟩ := Lexer.bind_ok h
  cases h
  obtain ⟨items, hlist, hvalues, hitems⟩ :=
    derives_delimited (Q := IsMember n) (fun _ _ => hg.member) hb
  obtain ⟨close, hrest, hclose, hspan⟩ := derives_symbol hc
  rw [hrest] at hlist
  simp only [hvalues, hspan]
  exact .of_members ht hlist hitems hclose

omit hg

variable {inside : Inside} (hi : InsideSound n inside)

theorem derives_relative {dots : Token} (hdots : dots.kind = .dots)
    {a : Parsed Expr (ts.length + 1)} (h : relative dots ts = .ok a) :
    Derives n .primary (dots :: ts) a.value a.rest := by
  cases ts with
  | nil => cases h
  | cons t rest =>
    simp only [relative] at h
    split at h
    · next ht =>
      cases h
      exact .relative hdots ht
    · cases h

include hi

theorem derives_primary {a : Parsed Expr ts.length} (h : primary inside ts = .ok a) :
    Derives n .primary ts a.value a.rest := by
  cases ts with
  | nil => cases h
  | cons t rest =>
    simp only [primary] at h
    cases hkind : t.kind with
    | number =>
      simp only [hkind] at h
      cases h
      exact .number hkind
    | string =>
      simp only [hkind] at h
      obtain ⟨text, htext, h⟩ := Lexer.bind_ok h
      cases h
      exact .string (.inl hkind) htext
    | template =>
      simp only [hkind] at h
      obtain ⟨text, htext, h⟩ := Lexer.bind_ok h
      cases h
      exact .string (.inr hkind) htext
    | blob form =>
      simp only [hkind] at h
      cases h
      exact .blob hkind
    | identifier =>
      simp only [hkind] at h
      cases h
      exact .word hkind
    | dots =>
      simp only [hkind] at h
      exact derives_relative hkind h
    | punct =>
      have hsymbol : ∀ {s : String}, t.text = s → t.isSymbol s = true :=
        fun hs => Token.isSymbol_iff.mpr ⟨hkind, hs⟩
      simp only [hkind] at h
      split at h
      · next ht =>
        obtain ⟨g, hinner, h⟩ := Lexer.bind_ok h
        obtain ⟨m, rfl, hg⟩ := hi _ _ hinner
        exact hg.group (hsymbol ht) h
      split at h
      · next ht =>
        obtain ⟨g, hinner, h⟩ := Lexer.bind_ok h
        obtain ⟨m, rfl, hg⟩ := hi _ _ hinner
        exact hg.array (hsymbol ht) h
      split at h
      · next ht =>
        obtain ⟨g, hinner, h⟩ := Lexer.bind_ok h
        obtain ⟨m, rfl, hg⟩ := hi _ _ hinner
        exact hg.object (hsymbol ht) h
      · cases h
    | eof =>
      simp only [hkind] at h
      cases h

/-- The arguments that follow are those of what is derived so far. -/
theorem derives_calls {first : List Token} {callee : Expr} {ts : List Token}
    (hcallee : Derives n .calls first callee ts) {a : Parsed Expr (ts.length + 1)}
    (h : calls inside callee ts = .ok a) : Derives n .chain first a.value a.rest := by
  fun_induction calls inside callee ts with
  | case1 callee =>
    cases h
    have hend : ¬ (peek []).isSymbol "(" = true := by decide
    exact .chain hcallee fun hopen => hend hopen.1
  | case2 | case3 | case4 | case5 => cases h
  | case6 callee t rest hopen g hinner args after shorter hargs close left shorter'
    hclose value left'
      shorter'' hmore ih =>
    cases h
    obtain ⟨m, rfl, hg⟩ := hi _ _ hinner
    obtain ⟨items, hlist, rfl, hitems⟩ := derives_delimited
      (Q := fun i => Derives m (.climb 0) i.tokens i.value i.rest) (fun _ _ => hg.expression) hargs
    obtain ⟨close, hafter, hsymbol, hspan⟩ := derives_symbol hclose
    dsimp only at hafter hspan hlist
    subst hafter hspan
    exact ih (.call hcallee hopen.1 hopen.2 hlist hitems hsymbol) hmore
  | case7 callee t rest hclosed =>
    cases h
    exact .chain hcallee hclosed

theorem derives_callChain {a : Parsed Expr ts.length} (h : callChain inside ts = .ok a) :
    Derives n .chain ts a.value a.rest := by
  unfold callChain at h
  obtain ⟨b, hb, h⟩ := Lexer.bind_ok h
  obtain ⟨c, hc, h⟩ := Lexer.bind_ok h
  cases h
  exact derives_calls hi (.single (derives_primary hi hb)) hc

theorem derives_operand {a : Parsed Expr ts.length} (h : operand inside ts = .ok a) :
    Derives n .operand ts a.value a.rest := by
  cases ts with
  | nil => exact .plain (derives_callChain hi h) rfl
  | cons t rest =>
    simp only [operand] at h
    split at h
    · next op hop =>
      obtain ⟨g, hinner, h⟩ := Lexer.bind_ok h
      obtain ⟨b, hb, h⟩ := Lexer.bind_ok h
      cases h
      obtain ⟨m, rfl, hg⟩ := hi _ _ hinner
      exact .unary hop (hg.unary hb)
    · next hop => exact .plain (derives_callChain hi h) hop

omit hi

theorem derives_climb {atom : Parser Expr}
    (hatom : ∀ ts a, atom ts = .ok a → Derives n .operand ts a.value a.rest) (least : Nat)
    (ts : List Token) (a : Parsed Expr ts.length) (h : climb atom least ts = .ok a) :
    Derives n (.climb least) ts a.value a.rest := by
  refine climb.induct atom
    (fun least left ts => ∀ first a, Derives n (.operators least) first left ts →
      climbFrom atom least left ts = .ok a → Derives n (.climb least) first a.value a.rest)
    (fun least ts => ∀ a, climb atom least ts = .ok a → Derives n (.climb least) ts a.value a.rest)
    ?done ?other ?looser ?rightFault ?moreFault ?more ?operandFault ?restFault ?rest least ts a h
  case done =>
    intro least left first a hleft h
    rw [climbFrom] at h
    cases h
    exact .climb hleft (by simp [Rests])
  case other =>
    intro least left t rest hop first a hleft h
    simp only [climbFrom, hop] at h
    cases h
    exact .climb hleft (by simp [Rests, hop])
  case looser =>
    intro least left t rest op hop hlt first a hleft h
    simp only [climbFrom, hop, if_pos hlt] at h
    cases h
    exact .climb hleft (by simpa [Rests, hop] using hlt)
  case rightFault =>
    intro least left t rest op hop hle e hx ih first a hleft h
    simp only [climbFrom, hop, if_neg hle, hx] at h
    cases h
  case moreFault =>
    intro least left t rest op hop hle right after shorter hx e hmore ih ihmore first a hleft h
    simp only [climbFrom, hop, if_neg hle, hx, hmore] at h
    cases h
  case more =>
    intro least left t rest op hop hle right after shorter hx value left' shorter' hmore ih ihmore
      first a hleft h
    simp only [climbFrom, hop, if_neg hle, hx, hmore] at h
    cases h
    exact ihmore first _ (.binary hleft hop (Nat.le_of_not_lt hle) (ih _ hx)) hmore
  case operandFault =>
    intro least ts e hx a h
    simp only [climb, hx] at h
    cases h
  case restFault =>
    intro least ts left rest shorter hx e hmore ih a h
    simp only [climb, hx, hmore] at h
    cases h
  case rest =>
    intro least ts left rest shorter hx value after shorter' hmore ih a h
    simp only [climb, hx, hmore] at h
    cases h
    exact ih ts _ (.first least (hatom ts _ hx)) hmore

theorem sound_ofInside {inside : Inside} (hi : InsideSound n inside) :
    Sound n (ofInside inside) where
  expression h := derives_climb (fun _ _ => derives_operand hi) 0 _ _ h
  unary h := derives_operand hi h
  chain h := derives_callChain hi h

theorem sound_levels (limit n depth : Nat) : Sound n (levels limit n depth) := by
  induction n generalizing depth with
  | zero => exact sound_ofInside fun _ _ hg => nomatch hg
  | succ n ih =>
    refine sound_ofInside fun _ g hg => ?_
    cases hg
    exact ⟨n, rfl, ih (depth + 1)⟩

end

/-! ## What is derived is read -/

section

variable {n : Nat} {rule : Rule} {inside : Inside} {ts rest : List Token} {e : Expr}

/-- The parser of a rule reads the expression. A rule that takes only some of what can follow leaves
the rest of it to the parser. -/
def Rule.Complete (inside : Inside) (ts : List Token) (e : Expr) (rest : List Token) : Rule → Prop
  | .primary => Reads (Grammar.primary inside ts) e rest
  | .calls => ∀ {value : Expr} {left : List Token}, Reads (Grammar.calls inside e rest) value left →
      Reads (callChain inside ts) value left
  | .chain => Reads (callChain inside ts) e rest
  | .operand => Reads (Grammar.operand inside ts) e rest
  | .operators least => ∀ {value : Expr} {left : List Token},
      Reads (climbFrom (Grammar.operand inside) least e rest) value left →
      Reads (Grammar.climb (Grammar.operand inside) least ts) value left
  | .climb least => Reads (Grammar.climb (Grammar.operand inside) least ts) e rest

theorem Listed.reads {α : Type} {close : String} {item : Parser α} {items : List (Item α)}
    (h : Listed close ts items rest)
    (hitems : ∀ i ∈ items, Reads (item i.tokens) i.value i.rest) :
    Reads (delimited close item ts) (items.map (·.value)) rest := by
  induction h with
  | done hclose => exact reads_delimited_nil hclose
  | last hopen hcomma =>
    exact reads_delimited_last hopen (hitems _ (List.mem_singleton_self _)) hcomma
  | @more i items t after rest hopen hafter hcomma h ih =>
    have hitem := hitems i (by simp)
    rw [hafter] at hitem
    exact reads_delimited_cons hopen hitem hcomma (ih fun i hi => hitems i (by simp [hi]))

theorem reads_memberItem {m : MemberItem} (hm : m.Proper)
    (h : m.rule.Complete inside m.tokens m.value m.rest) :
    Reads (Grammar.member (ofInside inside) m.item.tokens) m.item.value m.item.rest := by
  obtain ⟨⟨tokens, value, rest⟩, _ | ⟨t, colon, key⟩⟩ := m
  · obtain ⟨t, more, rfl, ht, hopen⟩ := hm
    exact reads_member_spread ht hopen h
  · exact reads_member_key hm.1 hm.2 (reads_property hm.2 h)

/-- The parsers read what is derived, where there are as many levels inside as the derivation
nests. -/
theorem Derives.reads (h : Derives n rule ts e rest) (hdeep : Deep n inside) :
    rule.Complete inside ts e rest := by
  induction h generalizing inside with
  | number ht | blob ht | word ht => exact ⟨Nat.lt_succ_self _, by simp [primary, ht]⟩
  | string ht htext =>
    refine ⟨Nat.lt_succ_self _, ?_⟩
    rcases ht with ht | ht <;> simp [primary, ht, htext, bind, Except.bind]
  | relative hdots ht =>
    exact ⟨Nat.lt_succ_of_lt (Nat.lt_succ_self _), by simp [primary, Grammar.relative, hdots, ht]⟩
  | group ht hhead h hclose ih =>
    obtain ⟨inner, hinner, hdeep⟩ := hdeep
    have hread : Reads ((ofInside inner).expression _) _ _ := ih hdeep
    exact (reads_primary_open hinner).1 ht (reads_group hhead hread hclose)
  | lambda ht hhead h ih =>
    obtain ⟨inner, hinner, hdeep⟩ := hdeep
    have hread : Reads ((ofInside inner).expression _) _ _ := ih hdeep
    exact (reads_primary_open hinner).1 ht (reads_lambda hhead hread)
  | array ht hlist h hclose ih =>
    obtain ⟨inner, hinner, hdeep⟩ := hdeep
    have hread : Reads (delimited "]" (ofInside inner).expression _) _ _ :=
      hlist.reads fun i hi => ih i hi hdeep
    refine (reads_primary_open hinner).2.1 ht ?_
    exact hread.bind fun _ => (reads_symbol hclose _).bind fun _ => ⟨_, rfl⟩
  | @object n t close ts rest members ht hlist hproper h hclose ih =>
    obtain ⟨inner, hinner, hdeep⟩ := hdeep
    have hread : Reads (delimited "\x7d" (Grammar.member (ofInside inner)) ts) _ _ :=
      hlist.reads (by
      simpa using fun m hm => reads_memberItem (hproper m hm) (ih m hm hdeep))
    rw [List.map_map] at hread
    refine (reads_primary_open hinner).2.2 ht ?_
    exact hread.bind fun _ => (reads_symbol hclose _).bind fun _ => ⟨_, rfl⟩
  | single h ih => exact fun hmore => reads_callChain (ih hdeep) hmore
  | call h ht hcallable hlist hitems hclose ih ihitems =>
    intro value left hmore
    have hdeep' := hdeep
    obtain ⟨inner, hinner, hdeep'⟩ := hdeep'
    have hargs := hlist.reads fun i hi => ihitems i hi hdeep'
    exact ih hdeep (reads_calls_step ht hcallable (hinner _) hargs hclose hmore)
  | chain h hstop ih => exact ih hdeep (reads_calls_closed inside hstop)
  | @plain n ts rest e h hfirst ih =>
    cases ts with
    | nil => exact ih hdeep
    | cons t ts => exact reads_operand_chain hfirst (ih hdeep)
  | unary hop h ih =>
    obtain ⟨inner, hinner, hdeep⟩ := hdeep
    exact reads_operand_unary hop (hinner _) (ih hdeep)
  | first least h ih => exact fun hmore => reads_climb (ih hdeep) hmore
  | binary h hop hleast hright ih ihright =>
    exact fun hmore => ih hdeep (reads_climbFrom_step hop hleast (ihright hdeep) hmore)
  | climb h hrests ih => exact ih hdeep ⟨_, climbFrom_of_rests hrests _⟩

end

/-! ## Tokens that are left -/

section

variable {n : Nat} {rule : Rule} {ts rest : List Token} {e : Expr}

/-- The tokens that are left end those that are read. -/
theorem suffix_of_lambdaHead {params : List String} {after : List Token}
    (h : lambdaHead ts = some (params, after)) : after <:+ ts := by
  have ahead : Ahead (· <:+ ts) fun _ => True :=
    ⟨fun h _ => (List.suffix_cons _ _).trans h, fun _ _ => trivial, fun _ _ _ => trivial,
      fun _ _ _ => trivial⟩
  exact ahead.next_lambdaHead List.suffix_rfl h

theorem Listed.suffix {α : Type} {close : String} {items : List (Item α)}
    (h : Listed close ts items rest) (hitems : ∀ i ∈ items, i.rest <:+ i.tokens) :
    rest <:+ ts ∧ ∀ i ∈ items, i.tokens <:+ ts := by
  induction h with
  | done => exact ⟨List.suffix_rfl, by simp⟩
  | @last i => exact ⟨hitems i (by simp), by simp⟩
  | @more i items t after rest hopen hafter hcomma h ih =>
    obtain ⟨hrest, hall⟩ := ih fun i hi => hitems i (by simp [hi])
    have hfirst : after <:+ i.tokens :=
      (List.suffix_cons t after).trans (hafter ▸ hitems i (by simp))
    refine ⟨hrest.trans hfirst, List.forall_mem_cons.mpr ⟨List.suffix_rfl, fun i hi => ?_⟩⟩
    exact (hall i hi).trans hfirst

theorem MemberItem.suffix (m : MemberItem) : m.tokens <:+ m.item.tokens := by
  obtain ⟨⟨tokens, value, rest⟩, _ | ⟨t, colon, key⟩⟩ := m
  · exact List.suffix_rfl
  · exact ⟨[t, colon], rfl⟩

@[simp] theorem MemberItem.rest_item (m : MemberItem) : m.item.rest = m.rest := by
  obtain ⟨_, _ | _⟩ := m <;> rfl

@[simp] theorem MemberItem.expr_item (m : MemberItem) : m.item.value.expr = m.value := by
  obtain ⟨_, _ | _⟩ := m <;> rfl

theorem Derives.suffix (h : Derives n rule ts e rest) : rest <:+ ts := by
  induction h with
  | number | string | blob | word => exact List.suffix_cons _ _
  | @relative _ dots t => exact ⟨[dots, t], rfl⟩
  | group ht hhead h hclose ih =>
    exact ((List.suffix_cons _ _).trans ih).trans (List.suffix_cons _ _)
  | lambda ht hhead h ih =>
    exact (ih.trans (suffix_of_lambdaHead hhead)).trans (List.suffix_cons _ _)
  | array ht hlist h hclose ih =>
    exact ((List.suffix_cons _ _).trans (hlist.suffix ih).1).trans (List.suffix_cons _ _)
  | object ht hlist hproper h hclose ih =>
    have hsuffix := (hlist.suffix (by simpa using fun m hm => (ih m hm).trans m.suffix)).1
    exact ((List.suffix_cons _ _).trans hsuffix).trans (List.suffix_cons _ _)
  | call h ht hcallable hlist hitems hclose ih ihitems =>
    exact (((List.suffix_cons _ _).trans (hlist.suffix ihitems).1).trans
      (List.suffix_cons _ _)).trans ih
  | unary hop h ih => exact ih.trans (List.suffix_cons _ _)
  | binary h hop hleast hright ih ihright => exact (ihright.trans (List.suffix_cons _ _)).trans ih
  | single h ih | chain h _ ih | plain h _ ih | first least h ih | climb h _ ih => exact ih

/-! ## Parts of what is derived -/

/-- The expression is derived from an end piece of the tokens. -/
def DerivedIn (ts : List Token) (e : Expr) : Prop :=
  ∃ n rule ts' rest, Derives n rule ts' e rest ∧ ts' <:+ ts

theorem Derives.derivedIn (h : Derives n rule ts e rest) : DerivedIn ts e :=
  ⟨n, rule, ts, rest, h, List.suffix_rfl⟩

theorem DerivedIn.mono {ts' : List Token} (h : DerivedIn ts' e) (hts : ts' <:+ ts) :
    DerivedIn ts e := by
  obtain ⟨n, rule, us, rest, h, hus⟩ := h
  exact ⟨n, rule, us, rest, h, hus.trans hts⟩

theorem Derives.child (h : Derives n rule ts e rest) {inside : Expr} (hmem : inside ∈ e.children) :
    DerivedIn ts inside := by
  induction h with
  | number | string | blob | relative => cases hmem
  | @word _ t =>
    unfold Grammar.word at hmem
    repeat' split at hmem
    all_goals cases hmem
  | group ht hhead h hclose ih => exact (ih hmem).mono (List.suffix_cons _ _)
  | lambda ht hhead h =>
    obtain rfl := List.mem_singleton.mp hmem
    exact h.derivedIn.mono ((suffix_of_lambdaHead hhead).trans (List.suffix_cons _ _))
  | array ht hlist h =>
    obtain ⟨i, hi, rfl⟩ := List.mem_map.mp hmem
    have hsuffix := (hlist.suffix fun i hi => (h i hi).suffix).2 i hi
    exact (h i hi).derivedIn.mono (hsuffix.trans (List.suffix_cons _ _))
  | @object n t close ts rest members ht hlist hproper h hclose =>
    obtain ⟨m, hm, rfl⟩ : ∃ m ∈ members, m.value = inside := by
      simpa [Expr.children] using hmem
    have hsuffix := (hlist.suffix (by simpa using fun m hm => (h m hm).suffix.trans m.suffix)).2 _
      (List.mem_map_of_mem hm)
    exact (h m hm).derivedIn.mono ((m.suffix.trans hsuffix).trans (List.suffix_cons _ _))
  | call h ht hcallable hlist hitems =>
    rcases List.mem_cons.mp hmem with rfl | hmem
    · exact h.derivedIn
    · obtain ⟨i, hi, rfl⟩ := List.mem_map.mp hmem
      have hsuffix := (hlist.suffix fun i hi => (hitems i hi).suffix).2 i hi
      exact (hitems i hi).derivedIn.mono ((hsuffix.trans (List.suffix_cons _ _)).trans h.suffix)
  | unary hop h =>
    obtain rfl := List.mem_singleton.mp hmem
    exact h.derivedIn.mono (List.suffix_cons _ _)
  | binary h hop hleast hright =>
    rcases List.mem_cons.mp hmem with rfl | hmem
    · exact h.derivedIn
    · obtain rfl := List.mem_singleton.mp hmem
      exact hright.derivedIn.mono ((List.suffix_cons _ _).trans h.suffix)
  | single h ih | chain h _ ih | plain h _ ih | first least h ih | climb h _ ih => exact ih hmem

/-- Every part of what is derived is derived. -/
theorem Derives.part (h : Derives n rule ts e rest) {p : Expr} (hp : p.PartOf e) :
    DerivedIn ts p := by
  induction hp with
  | refl => exact h.derivedIn
  | tail _ hmem ih =>
    obtain ⟨_, _, _, _, hpart, hsuffix⟩ := ih
    exact (hpart.child hmem).mono hsuffix

end

end Grammar

open Grammar

/-! ## Whole texts -/

/-- Tokens are read as an expression exactly when it is derived from all of them. -/
theorem parseTokens_eq_ok_iff {limit : Nat} {ts : List Token} {e : Expr} :
    parseTokens limit ts = .ok e ↔
      ∃ rest, Derives limit (.climb 0) ts e rest ∧ (peek rest).kind = .eof := by
  constructor
  · intro h
    obtain ⟨a, ha, h⟩ := Lexer.bind_ok h
    dsimp only at h
    split at h
    · next hend =>
      cases h
      exact ⟨a.rest, (sound_levels limit limit 0).expression ha, hend⟩
    · cases h
  · rintro ⟨rest, h, hend⟩
    obtain ⟨inside, hlevels, hdeep⟩ := exists_deep limit limit 0
    obtain ⟨_, hread⟩ : Reads ((upTo limit 0).expression ts) e rest := by
      rw [upTo, Nat.sub_zero, hlevels]
      exact h.reads hdeep
    simp [LazyConfig.parseTokens, hread, bind, Except.bind, hend]

end LazyConfig
