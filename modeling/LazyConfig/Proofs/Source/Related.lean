-- Two lists of tokens that are related word by word are read alike: both fail for the same cause,
-- or both give trees, and the trees are related by whatever relation all the ways to build a tree
-- keep.
-- Main statement: what reading a whole list of tokens keeps.
import LazyConfig.Proofs.Source.Spreads
import Mathlib.Data.List.Forall2

namespace LazyConfig

open List (Forall₂)

/-! ## Relations of tokens and of trees -/

/-- Two members of one shape, with related expressions. -/
inductive Member.Related (V : Expr → Expr → Prop) : Member → Member → Prop
  | property (key : String) {value value' : Expr} (h : V value value') :
      Related V (.property key value) (.property key value')
  | spread {value value' : Expr} (h : V value value') : Related V (.spread value) (.spread value')

/-- Names that related tokens write. -/
def Named (R : Token → Token → Prop) (names : List String) : Prop :=
  ∀ name ∈ names, ∃ t t', R t t' ∧ t.kind = .identifier ∧ t.text = name

/-- Each way to build a tree from tokens builds related trees from related tokens and trees, at
whatever places. -/
structure Respects (R : Token → Token → Prop) (V : Expr → Expr → Prop) : Prop where
  kind_eq {t t' : Token} : R t t' → t.kind = t'.kind
  text_eq {t t' : Token} : R t t' → t.text = t'.text
  callable_eq {e e' : Expr} : V e e' → e.isCallable = e'.isCallable
  number {t t' : Token} (s s' : Span) : R t t' → t.kind = .number →
    V (.number s t.text) (.number s' t'.text)
  string (s s' : Span) (text : String) : V (.string s text) (.string s' text)
  blob {t t' : Token} {form : BlobForm} (s s' : Span) : R t t' → t.kind = .blob form →
    V (.blob s form (Grammar.unwrap 4 t.text)) (.blob s' form (Grammar.unwrap 4 t'.text))
  word {t t' : Token} : R t t' → t.kind = .identifier → V (Grammar.word t) (Grammar.word t')
  relative {dots dots' t t' : Token} (s s' : Span) : R dots dots' → dots.kind = .dots → R t t' →
    t.kind = .identifier →
    V (.relative s (dots.text.length - 1) t.text) (.relative s' (dots'.text.length - 1) t'.text)
  array {es es' : List Expr} (s s' : Span) : Forall₂ V es es' → V (.array s es) (.array s' es')
  object {ms ms' : List Member} (s s' : Span) : Forall₂ (Member.Related V) ms ms' →
    (∀ e, Member.spread e ∈ ms → e.isNamedCall = true) → V (.object s ms) (.object s' ms')
  call {e e' : Expr} {es es' : List Expr} (s s' : Span) : V e e' → e.isCallable = true →
    Forall₂ V es es' → V (.call s e es) (.call s' e' es')
  lambda {params : List String} {e e' : Expr} (s s' : Span) :
    Named R params → V e e' → V (.lambda s params e) (.lambda s' params e')
  binary {l l' r r' : Expr} (s s' : Span) (op : BinaryOp) : V l l' → V r r' →
    V (.binary s op l r) (.binary s' op l' r')
  unary {e e' : Expr} (s s' : Span) (op : UnaryOp) : V e e' → V (.unary s op e) (.unary s' op e')

/-- Two outcomes of reading: both fail for one cause, or what is read and what is left are
related. -/
def Alike {α β : Type} {n m : Nat} (R : Token → Token → Prop) (V : α → β → Prop) :
    Except Fault (Parsed α n) → Except Fault (Parsed β m) → Prop
  | .error e, .error e' => e.kind = e'.kind
  | .ok a, .ok b => V a.value b.value ∧ Forall₂ R a.rest b.rest
  | _, _ => False

variable {R : Token → Token → Prop} {V : Expr → Expr → Prop}

section

variable {α β γ δ : Type} {n m k l : Nat} {W : α → β → Prop} {W' : γ → δ → Prop}

/-- Reading goes on with related outcomes. -/
theorem Alike.bind {x : Except Fault (Parsed α n)} {y : Except Fault (Parsed β m)}
    {f : Parsed α n → Except Fault (Parsed γ k)} {g : Parsed β m → Except Fault (Parsed δ l)}
    (h : Alike R W x y)
    (hfg : ∀ a b, W a.value b.value → Forall₂ R a.rest b.rest → Alike R W' (f a) (g b)) :
    Alike R W' (x >>= f) (y >>= g) := by
  cases x with
  | error e =>
    cases y with
    | error e' => exact h
    | ok b => exact h.elim
  | ok a =>
    cases y with
    | error e' => exact h.elim
    | ok b => exact hfg a b h.1 h.2

/-- The two ways in which outcomes are alike. -/
theorem Alike.cases {x : Except Fault (Parsed α n)} {y : Except Fault (Parsed β m)}
    (h : Alike R W x y) :
    (∃ e e', x = .error e ∧ y = .error e' ∧ e.kind = e'.kind) ∨
    ∃ a b, x = .ok a ∧ y = .ok b ∧ W a.value b.value ∧ Forall₂ R a.rest b.rest := by
  cases x with
  | error e =>
    cases y with
    | error e' => exact .inl ⟨e, e', rfl, rfl, h⟩
    | ok b => exact h.elim
  | ok a =>
    cases y with
    | error e' => exact h.elim
    | ok b => exact .inr ⟨a, b, rfl, rfl, h⟩

end

namespace Respects

variable (rv : Respects R V) {ts ts' : List Token} {t t' : Token}

include rv

/-! ## Single tokens -/

theorem isSymbol_eq (h : R t t') (symbol : String) : t.isSymbol symbol = t'.isSymbol symbol := by
  rw [Token.isSymbol, Token.isSymbol, rv.kind_eq h, rv.text_eq h]

theorem peek_eq (h : Forall₂ R ts ts') :
    (Grammar.peek ts).kind = (Grammar.peek ts').kind ∧
      (Grammar.peek ts).text = (Grammar.peek ts').text := by
  cases h with
  | nil => exact ⟨rfl, rfl⟩
  | cons ht _ => exact ⟨rv.kind_eq ht, rv.text_eq ht⟩

theorem peek_isSymbol_eq (h : Forall₂ R ts ts') (symbol : String) :
    (Grammar.peek ts).isSymbol symbol = (Grammar.peek ts').isSymbol symbol := by
  rw [Token.isSymbol, Token.isSymbol, (rv.peek_eq h).1, (rv.peek_eq h).2]

theorem unexpected_eq (h : Forall₂ R ts ts') (expected : Expected) :
    (Grammar.unexpected expected ts).kind = (Grammar.unexpected expected ts').kind := by
  simp [Grammar.unexpected, rv.peek_eq h]

theorem alike_symbol (h : Forall₂ R ts ts') (symbol : String) :
    Alike R (fun _ _ => True) (Grammar.symbol symbol ts) (Grammar.symbol symbol ts') := by
  cases h with
  | nil => exact rfl
  | cons ht hrest =>
    simp only [Grammar.symbol, ← rv.isSymbol_eq ht]
    split
    · exact ⟨trivial, hrest⟩
    · exact rv.unexpected_eq (.cons ht hrest) _

theorem alike_contents (h : R t t') :
    (∃ e e', Grammar.contents t = .error e ∧ Grammar.contents t' = .error e' ∧
      e.kind = e'.kind) ∨
    ∃ text, Grammar.contents t = .ok text ∧ Grammar.contents t' = .ok text := by
  unfold Grammar.contents
  rw [rv.text_eq h]
  cases Escape.unescape (Grammar.unwrap 1 t'.text) with
  | error e => exact .inl ⟨_, _, rfl, rfl, rfl⟩
  | ok text => exact .inr ⟨text, rfl, rfl⟩

/-! ## Lists with commas -/

theorem alike_delimited {α β : Type} {W : α → β → Prop} (close : String) {item : Parser α}
    {item' : Parser β} {ts ts' : List Token}
    (hitem : ∀ ts ts', Forall₂ R ts ts' → Alike R W (item ts) (item' ts'))
    (h : Forall₂ R ts ts') :
    Alike R (Forall₂ W) (Grammar.delimited close item ts) (Grammar.delimited close item' ts') := by
  unfold Grammar.delimited
  rw [rv.peek_isSymbol_eq h]
  split
  · exact ⟨.nil, h⟩
  rcases (hitem ts ts' h).cases with ⟨e, e', hx, hy, he⟩ | ⟨a, b, hx, hy, hv, hrest⟩
  · simp only [hx, hy]
    exact he
  obtain ⟨first, rest, shorter⟩ := a
  obtain ⟨first', rest', shorter'⟩ := b
  simp only [hx, hy]
  cases hrest with
  | nil => exact ⟨.cons hv .nil, .nil⟩
  | @cons t t' rest rest' ht hrest =>
    simp only [rv.isSymbol_eq ht]
    split
    · have hmore := alike_delimited close hitem hrest
      rcases hmore.cases with ⟨e, e', hx, hy, he⟩ | ⟨a, b, hx, hy, hvs, hleft⟩
      · simp only [hx, hy]
        exact he
      · simp only [hx, hy]
        exact ⟨.cons hv hvs, hleft⟩
    · exact ⟨.cons hv .nil, .cons ht hrest⟩
  termination_by ts.length
  decreasing_by
    simp only [List.length_cons] at shorter
    omega

/-! ## Lambda parameters -/

theorem alike_parameters {ts ts' : List Token} (h : Forall₂ R ts ts') :
    (Grammar.parameters ts = none ∧ Grammar.parameters ts' = none) ∨
    ∃ names rest rest', Grammar.parameters ts = some (names, rest) ∧
      Grammar.parameters ts' = some (names, rest') ∧ Named R names ∧ Forall₂ R rest rest' := by
  cases h with
  | nil => exact .inl ⟨rfl, rfl⟩
  | @cons t t' rest rest' ht hrest =>
    unfold Grammar.parameters
    simp only [← rv.isSymbol_eq ht, ← rv.kind_eq ht, ← rv.text_eq ht]
    split
    · exact .inr ⟨[], rest, rest', rfl, rfl, by simp [Named], hrest⟩
    split
    · next hkind =>
      cases hrest with
      | nil => exact .inl ⟨rfl, rfl⟩
      | @cons u u' after after' hu hafter =>
        simp only [← rv.isSymbol_eq hu]
        have hname : Named R [t.text] := by
          intro name hmem
          rw [List.mem_singleton] at hmem
          exact ⟨t, t', ht, hkind, hmem.symm⟩
        split
        · rcases alike_parameters hafter with ⟨hx, hy⟩ | ⟨names, left, left', hx, hy, hnames, hleft⟩
          · exact .inl ⟨by rw [hx]; rfl, by rw [hy]; rfl⟩
          · refine .inr ⟨t.text :: names, left, left', by rw [hx]; rfl, by rw [hy]; rfl, ?_,
              hleft⟩
            intro name hmem
            rcases List.mem_cons.mp hmem with rfl | hmem
            · exact hname _ (by simp)
            · exact hnames name hmem
        · split
          · exact .inr ⟨[t.text], after, after', rfl, rfl, hname, hafter⟩
          · exact .inl ⟨rfl, rfl⟩
    · exact .inl ⟨rfl, rfl⟩
  termination_by ts.length

theorem alike_lambdaHead (h : Forall₂ R ts ts') :
    (Grammar.lambdaHead ts = none ∧ Grammar.lambdaHead ts' = none) ∨
    ∃ names rest rest', Grammar.lambdaHead ts = some (names, rest) ∧
      Grammar.lambdaHead ts' = some (names, rest') ∧ Named R names ∧ Forall₂ R rest rest' := by
  unfold Grammar.lambdaHead
  rcases rv.alike_parameters h with ⟨hx, hy⟩ | ⟨names, rest, rest', hx, hy, hnames, hrest⟩
  · simp [hx, hy]
  · rw [hx, hy]
    cases hrest with
    | nil => exact .inl ⟨rfl, rfl⟩
    | @cons t t' rest rest' ht hrest =>
      simp only [← rv.isSymbol_eq ht]
      split
      · exact .inr ⟨names, rest, rest', rfl, rfl, hnames, hrest⟩
      · exact .inl ⟨rfl, rfl⟩

end Respects

/-! ## One level of nesting -/

/-- Two grammars of one level read related lists alike. -/
structure Grammar.Related (R : Token → Token → Prop) (V : Expr → Expr → Prop) (g g' : Grammar) :
    Prop where
  expression {ts ts' : List Token} : Forall₂ R ts ts' →
    Alike R V (g.expression ts) (g'.expression ts')
  unary {ts ts' : List Token} : Forall₂ R ts ts' → Alike R V (g.unary ts) (g'.unary ts')
  chain {ts ts' : List Token} : Forall₂ R ts ts' → Alike R V (g.chain ts) (g'.chain ts')
  /-- What starts with a name and a parenthesis is a call of the name, or stops there. -/
  named {t : Token} {rest : List Token} {a : Parsed Expr (rest.length + 1)} :
    t.kind = .identifier → (Grammar.peek rest).isSymbol "(" = true →
    g.chain (t :: rest) = .ok a →
    a.value.isNamedCall = true ∨ (Grammar.peek a.rest).isSymbol "(" = true

/-- A spread in a closed object is a call of a name, as no parenthesis follows it. -/
theorem Grammar.Related.isNamedCall_of_closed {g g' : Grammar} (hg : Grammar.Related R V g g')
    {ts : List Token} {a : Parsed (List Member) (ts.length + 1)}
    (h : Grammar.delimited "\x7d" g.member ts = .ok a)
    (hclose : (Grammar.peek a.rest).isSymbol "\x7d" = true) {e : Expr} (he : .spread e ∈ a.value) :
    e.isNamedCall = true := by
  let Q (m : Member) (rest : List Token) : Prop := ∀ e, m = .spread e →
    e.isNamedCall = true ∨ (Grammar.peek rest).isSymbol "(" = true
  have hitem : ∀ ts a, g.member ts = .ok a → Q a.value a.rest := by
    rintro (_ | ⟨t, rest⟩) a h e he
    · cases h
    simp only [Grammar.member] at h
    split at h
    · next hkind =>
      split at h
      · next hopen =>
        obtain ⟨b, hb, h⟩ := Lexer.bind_ok h
        cases h
        cases he
        exact hg.named hkind hopen hb
      · exact absurd he (Grammar.ne_spread_of_property h e)
    · obtain ⟨key, -, h⟩ := Lexer.bind_ok h
      exact absurd he (Grammar.ne_spread_of_property h e)
    · obtain ⟨key, -, h⟩ := Lexer.bind_ok h
      exact absurd he (Grammar.ne_spread_of_property h e)
    · cases h
  obtain ⟨rest, hQ, hnext⟩ := Grammar.followed_of_delimited hitem h hclose _ he
  rcases hQ e rfl with hcall | hopen
  · exact hcall
  · rcases hnext with hnext | hnext
    · exact absurd (Token.eq_of_isSymbol hopen hnext) (by decide)
    · exact absurd (Token.eq_of_isSymbol hopen hnext) (by decide)

namespace Respects

variable (rv : Respects R V) {g g' : Grammar} (hg : Grammar.Related R V g g')
  {ts ts' : List Token} {t t' : Token}

include rv hg

theorem alike_group (h : Forall₂ R ts ts') :
    Alike R V (g.group t ts) (g'.group t' ts') := by
  unfold Grammar.group
  rcases rv.alike_lambdaHead h with ⟨hx, hy⟩ | ⟨names, rest, rest', hx, hy, hnames, hrest⟩
  · split
    · next hsome => rw [hx] at hsome; cases hsome
    split
    · next hsome => rw [hy] at hsome; cases hsome
    refine (hg.expression h).bind fun a b hv hrest => ?_
    exact (rv.alike_symbol hrest ")").bind fun _ _ _ hleft => ⟨hv, hleft⟩
  · split
    swap
    · next hnone => rw [hx] at hnone; cases hnone
    next hsome =>
    split
    swap
    · next hnone => rw [hy] at hnone; cases hnone
    next hsome' =>
    rw [hx] at hsome
    rw [hy] at hsome'
    cases hsome
    cases hsome'
    exact (hg.expression hrest).bind fun a b hv hleft => ⟨rv.lambda _ _ hnames hv, hleft⟩

theorem alike_array (h : Forall₂ R ts ts') : Alike R V (g.array t ts) (g'.array t' ts') := by
  unfold Grammar.array
  refine (rv.alike_delimited _ (fun _ _ => hg.expression) h).bind fun a b hvs hrest => ?_
  exact (rv.alike_symbol hrest "]").bind fun _ _ _ hleft => ⟨rv.array _ _ hvs, hleft⟩

theorem alike_property (key : String) (h : Forall₂ R ts ts') :
    Alike R (Member.Related V) (g.property key ts) (g'.property key ts') := by
  unfold Grammar.property
  refine (rv.alike_symbol h ":").bind fun _ _ _ hrest => ?_
  exact (hg.expression hrest).bind fun a b hv hleft => ⟨.property key hv, hleft⟩

theorem alike_member (h : Forall₂ R ts ts') :
    Alike R (Member.Related V) (g.member ts) (g'.member ts') := by
  cases h with
  | nil => exact rfl
  | @cons t t' rest rest' ht hrest =>
    have hkey : Alike R (Member.Related V)
        (do let key ← Grammar.contents t; g.property key rest)
        (do let key ← Grammar.contents t'; g'.property key rest') := by
      rcases rv.alike_contents ht with ⟨e, e', hx, hy, he⟩ | ⟨key, hx, hy⟩
      · rw [hx, hy]
        exact he
      · rw [hx, hy]
        exact rv.alike_property hg key hrest
    have hbad := rv.unexpected_eq (.cons ht hrest) .propertyName
    simp only [Grammar.member]
    rw [← rv.kind_eq ht, ← rv.peek_isSymbol_eq hrest, ← rv.text_eq ht]
    split
    · split
      · exact (hg.chain (.cons ht hrest)).bind fun a b hv hleft => ⟨.spread hv, hleft⟩
      · exact rv.alike_property hg t.text hrest
    · exact hkey
    · exact hkey
    · exact hbad

theorem alike_object (h : Forall₂ R ts ts') : Alike R V (g.object t ts) (g'.object t' ts') := by
  unfold Grammar.object
  have hms := rv.alike_delimited "\x7d" (fun _ _ => rv.alike_member hg) h
  rcases hms.cases with ⟨e, e', hx, hy, he⟩ | ⟨⟨ms, rest, shorter⟩, b, hx, hy, hv, hrest⟩
  · rw [hx, hy]
    exact he
  rw [hx, hy]
  rcases (rv.alike_symbol hrest "\x7d").cases with ⟨e, e', hx', hy', he⟩ |
    ⟨a, b', hx', hy', -, hleft⟩
  · simp only [bind, Except.bind, hx', hy']
    exact he
  · simp only [bind, Except.bind, hx', hy']
    refine ⟨rv.object _ _ hv fun e he => ?_, hleft⟩
    exact hg.isNamedCall_of_closed hx (Grammar.isSymbol_of_symbol hx') he

end Respects

/-! ## Call chains and operators -/

/-- The level inside of two grammars: both have none, or related ones. -/
def Grammar.InsideRelated (R : Token → Token → Prop) (V : Expr → Expr → Prop)
    (inside inside' : Grammar.Inside) : Prop :=
  ∀ ts ts', (∃ e e', inside ts = .error e ∧ inside' ts' = .error e' ∧ e.kind = e'.kind) ∨
    ∃ g g', inside ts = .ok g ∧ inside' ts' = .ok g' ∧ Grammar.Related R V g g'

namespace Respects

variable (rv : Respects R V)

include rv

theorem alike_relative {dots dots' : Token} {ts ts' : List Token} (hdots : R dots dots')
    (hkind : dots.kind = .dots) (h : Forall₂ R ts ts') :
    Alike R V (Grammar.relative dots ts) (Grammar.relative dots' ts') := by
  cases h with
  | nil => exact rfl
  | @cons t t' rest rest' ht hrest =>
    simp only [Grammar.relative, ← rv.kind_eq ht]
    split
    · next ht' => exact ⟨rv.relative _ _ hdots hkind ht ht', hrest⟩
    · exact rv.unexpected_eq (.cons ht hrest) _

variable {inside inside' : Grammar.Inside} (hi : Grammar.InsideRelated R V inside inside')

include hi

omit rv in
/-- Reading goes on one level inside, if there is one. -/
theorem alike_inside {α : Type} {n m : Nat} {W : α → α → Prop} (ts ts' : List Token)
    {f : Grammar → Except Fault (Parsed α n)} {f' : Grammar → Except Fault (Parsed α m)}
    (h : ∀ g g', Grammar.Related R V g g' → Alike R W (f g) (f' g')) :
    Alike R W (inside ts >>= f) (inside' ts' >>= f') := by
  rcases hi ts ts' with ⟨e, e', hx, hy, he⟩ | ⟨g, g', hx, hy, hg⟩
  · rw [hx, hy]
    exact he
  · rw [hx, hy]
    exact h g g' hg

theorem alike_primary {ts ts' : List Token} (h : Forall₂ R ts ts') :
    Alike R V (Grammar.primary inside ts) (Grammar.primary inside' ts') := by
  cases h with
  | nil => exact rfl
  | @cons t t' rest rest' ht hrest =>
    have hbad := rv.unexpected_eq (.cons ht hrest) .expression
    have htext : Alike R V
        (do let text ← Grammar.contents t
            .ok (⟨.string t.span text, rest, Nat.lt_succ_self _⟩ : Parsed Expr (rest.length + 1)))
        (do let text ← Grammar.contents t'
            .ok (⟨.string t'.span text, rest', Nat.lt_succ_self _⟩ :
            Parsed Expr (rest'.length + 1))) := by
      rcases rv.alike_contents ht with ⟨e, e', hx, hy, he⟩ | ⟨text, hx, hy⟩
      · rw [hx, hy]
        exact he
      · rw [hx, hy]
        exact ⟨rv.string _ _ _, hrest⟩
    have hkind := rv.kind_eq ht
    cases hk : t.kind with
    | number =>
      rw [hk] at hkind
      simp only [Grammar.primary, hk, ← hkind]
      exact ⟨rv.number _ _ ht hk, hrest⟩
    | string =>
      rw [hk] at hkind
      simp only [Grammar.primary, hk, ← hkind]
      exact htext
    | template =>
      rw [hk] at hkind
      simp only [Grammar.primary, hk, ← hkind]
      exact htext
    | blob form =>
      rw [hk] at hkind
      simp only [Grammar.primary, hk, ← hkind]
      exact ⟨rv.blob _ _ ht hk, hrest⟩
    | identifier =>
      rw [hk] at hkind
      simp only [Grammar.primary, hk, ← hkind]
      exact ⟨rv.word ht hk, hrest⟩
    | dots =>
      rw [hk] at hkind
      simp only [Grammar.primary, hk, ← hkind]
      exact rv.alike_relative ht hk hrest
    | punct =>
      rw [hk] at hkind
      simp only [Grammar.primary, hk, ← hkind, ← rv.text_eq ht]
      split
      · exact alike_inside hi _ _ fun g g' hg => rv.alike_group hg hrest
      split
      · exact alike_inside hi _ _ fun g g' hg => rv.alike_array hg hrest
      split
      · exact alike_inside hi _ _ fun g g' hg => rv.alike_object hg hrest
      · exact hbad
    | eof =>
      rw [hk] at hkind
      simp only [Grammar.primary, hk, ← hkind]
      exact hbad

theorem alike_calls {callee callee' : Expr} {ts ts' : List Token} (hv : V callee callee')
    (h : Forall₂ R ts ts') :
    Alike R V (Grammar.calls inside callee ts) (Grammar.calls inside' callee' ts') := by
  cases h with
  | nil =>
    unfold Grammar.calls
    exact ⟨hv, .nil⟩
  | @cons t t' rest rest' ht hrest =>
    unfold Grammar.calls
    simp only [← rv.isSymbol_eq ht, ← rv.callable_eq hv]
    split
    swap
    · exact ⟨hv, .cons ht hrest⟩
    next hopen =>
    rcases hi rest rest' with ⟨e, e', hx, hy, he⟩ | ⟨g, g', hx, hy, hg⟩
    · simp only [hx, hy]
      exact he
    simp only [hx, hy]
    have hargs := rv.alike_delimited ")" (fun _ _ => hg.expression) hrest
    rcases hargs.cases with ⟨e, e', hx, hy, he⟩ | ⟨⟨args, after, shorter⟩, b, hx, hy, hvs, hafter⟩
    · simp only [hx, hy]
      exact he
    simp only [hx, hy]
    rcases (rv.alike_symbol hafter ")").cases with ⟨e, e', hx, hy, he⟩ |
      ⟨⟨close, left, shorter'⟩, b', hx, hy, -, hleft⟩
    · simp only [hx, hy]
      exact he
    simp only [hx, hy]
    have hlt : left.length < (t :: rest).length := by
      simp only [List.length_cons] at shorter ⊢
      dsimp only at shorter'
      omega
    have hmore :=
      alike_calls (rv.call (callee.span.through close) (callee'.span.through b'.value) hv
      hopen.2 hvs) hleft
    rcases hmore.cases with ⟨e, e', hx, hy, he⟩ | ⟨a, b, hx, hy, hv, hrest⟩
    · simp only [hx, hy]
      exact he
    · simp only [hx, hy]
      exact ⟨hv, hrest⟩
  termination_by ts.length
  decreasing_by exact hlt

theorem alike_callChain {ts ts' : List Token} (h : Forall₂ R ts ts') :
    Alike R V (Grammar.callChain inside ts) (Grammar.callChain inside' ts') := by
  unfold Grammar.callChain
  refine (rv.alike_primary hi h).bind fun a b hv hrest => ?_
  exact (rv.alike_calls hi hv hrest).bind fun _ _ hv hleft => ⟨hv, hleft⟩

theorem alike_operand {ts ts' : List Token} (h : Forall₂ R ts ts') :
    Alike R V (Grammar.operand inside ts) (Grammar.operand inside' ts') := by
  cases h with
  | nil => exact rv.alike_callChain hi .nil
  | @cons t t' rest rest' ht hrest =>
    have hop : Grammar.unaryOp? t = Grammar.unaryOp? t' := by
      rw [Grammar.unaryOp?, Grammar.unaryOp?, rv.kind_eq ht, rv.text_eq ht]
    simp only [Grammar.operand, ← hop]
    split
    · refine alike_inside hi _ _ fun g g' hg => ?_
      exact (hg.unary hrest).bind fun _ _ hv hleft => ⟨rv.unary _ _ _ hv, hleft⟩
    · exact rv.alike_callChain hi (.cons ht hrest)

end Respects

variable {atom atom' : Parser Expr}

mutual

theorem Respects.alike_climbFrom (rv : Respects R V)
    (ha : ∀ {ts ts' : List Token}, Forall₂ R ts ts' → Alike R V (atom ts) (atom' ts')) (least : Nat)
    {left left' : Expr} {ts ts' : List Token} (hv : V left left') (h : Forall₂ R ts ts') :
    Alike R V (Grammar.climbFrom atom least left ts) (Grammar.climbFrom atom' least left' ts') := by
  cases h with
  | nil =>
    unfold Grammar.climbFrom
    exact ⟨hv, .nil⟩
  | @cons t t' rest rest' ht hrest =>
    have hop : Grammar.binaryOp? t = Grammar.binaryOp? t' := by
      rw [Grammar.binaryOp?, Grammar.binaryOp?, rv.kind_eq ht, rv.text_eq ht]
    unfold Grammar.climbFrom
    simp only [← hop]
    split
    · exact ⟨hv, .cons ht hrest⟩
    next op _ =>
    split
    · exact ⟨hv, .cons ht hrest⟩
    have hright := rv.alike_climb ha (op.precedence + 1) hrest
    rcases hright.cases with ⟨e, e', hx, hy, he⟩ | ⟨⟨right, after, shorter⟩, b, hx, hy, hvr, hafter⟩
    · simp only [hx, hy]
      exact he
    simp only [hx, hy]
    have hlt : after.length < (t :: rest).length := by
      simp only [List.length_cons]
      omega
    have hmore := rv.alike_climbFrom ha least
      (rv.binary (left.span.through right.span) (left'.span.through b.value.span) op hv hvr) hafter
    rcases hmore.cases with ⟨e, e', hx, hy, he⟩ | ⟨a, b, hx, hy, hv, hrest⟩
    · simp only [hx, hy]
      exact he
    · simp only [hx, hy]
      exact ⟨hv, hrest⟩
  termination_by ts.length
  decreasing_by
    · simp
    · exact hlt

theorem Respects.alike_climb (rv : Respects R V)
    (ha : ∀ {ts ts' : List Token}, Forall₂ R ts ts' → Alike R V (atom ts) (atom' ts')) (least : Nat)
    {ts ts' : List Token} (h : Forall₂ R ts ts') :
    Alike R V (Grammar.climb atom least ts) (Grammar.climb atom' least ts') := by
  unfold Grammar.climb
  rcases (ha h).cases with ⟨e, e', hx, hy, he⟩ | ⟨⟨left, rest, shorter⟩, b, hx, hy, hv, hrest⟩
  · simp only [hx, hy]
    exact he
  simp only [hx, hy]
  have hmore := rv.alike_climbFrom ha least hv hrest
  rcases hmore.cases with ⟨e, e', hx, hy, he⟩ | ⟨a, b, hx, hy, hv, hrest⟩
  · simp only [hx, hy]
    exact he
  · simp only [hx, hy]
    exact ⟨hv, hrest⟩
  termination_by ts.length
  decreasing_by exact shorter

end

/-! ## All levels -/

namespace Respects

variable (rv : Respects R V)

include rv

theorem related_ofInside {inside inside' : Grammar.Inside}
    (hi : Grammar.InsideRelated R V inside inside') :
    Grammar.Related R V (Grammar.ofInside inside) (Grammar.ofInside inside') where
  expression h := rv.alike_climb (rv.alike_operand hi) 0 h
  unary h := rv.alike_operand hi h
  chain h := rv.alike_callChain hi h
  named hkind hopen h := Grammar.isNamedCall_callChain hkind hopen h

theorem related_levels (limit n depth : Nat) :
    Grammar.Related R V (Grammar.levels limit n depth) (Grammar.levels limit n depth) := by
  induction n generalizing depth with
  | zero => exact rv.related_ofInside fun _ _ => .inl ⟨_, _, rfl, rfl, rfl⟩
  | succ n ih => exact rv.related_ofInside fun _ _ => .inr ⟨_, _, rfl, rfl, ih (depth + 1)⟩

/-- Related lists of tokens are read as related trees, or both as none for one cause. -/
theorem parseTokens (limit : Nat) {ts ts' : List Token} (h : Forall₂ R ts ts') :
    (∃ e e', LazyConfig.parseTokens limit ts = .error e ∧
      LazyConfig.parseTokens limit ts' = .error e' ∧ e.kind = e'.kind) ∨
    ∃ e e', LazyConfig.parseTokens limit ts = .ok e ∧ LazyConfig.parseTokens limit ts' = .ok e' ∧
      V e e' := by
  have hg := rv.related_levels limit limit 0
  unfold LazyConfig.parseTokens Grammar.upTo
  rcases (hg.expression h).cases with ⟨e, e', hx, hy, he⟩ |
    ⟨⟨value, rest, shorter⟩, ⟨value', rest', shorter'⟩, hx, hy, hv, hrest⟩
  · refine .inl ⟨e, e', ?_, ?_, he⟩
    · simp only [Nat.sub_zero, hx, bind, Except.bind]
    · simp only [Nat.sub_zero, hy, bind, Except.bind]
  · simp only [Nat.sub_zero, hx, hy, bind, Except.bind, (rv.peek_eq hrest).1]
    split
    · exact .inr ⟨_, _, rfl, rfl, hv⟩
    · exact .inl ⟨_, _, rfl, rfl, rv.unexpected_eq hrest _⟩

end Respects

end LazyConfig
