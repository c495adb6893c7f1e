-- Trees and tokens without their places. What a list of tokens is read as depends on the places of
-- the tokens only in the places of the tree.
-- Main statement: lists of tokens that differ in places only are read as trees that differ in
-- places only, or both as none for one cause.
import LazyConfig.Proofs.Source.Related

namespace LazyConfig

open List (Forall₂)

/-! ## Forgetting places -/

/-- A token of a kind and a text, at no place. -/
def Token.of (kind : TokenKind) (text : String) : Token := ⟨kind, default, text⟩

/-- The token at no place. -/
def Token.bare (t : Token) : Token := .of t.kind t.text

mutual

/-- The expression at no place. -/
def Expr.bare : Expr → Expr
  | .number _ text => .number default text
  | .string _ text => .string default text
  | .boolean _ value => .boolean default value
  | .null _ => .null default
  | .blob _ form text => .blob default form text
  | .identifier _ name => .identifier default name
  | .relative _ level name => .relative default level name
  | .array _ elements => .array default (Expr.bareAll elements)
  | .object _ members => .object default (Member.bareAll members)
  | .call _ callee args => .call default callee.bare (Expr.bareAll args)
  | .lambda _ params body => .lambda default params body.bare
  | .binary _ op left right => .binary default op left.bare right.bare
  | .unary _ op operand => .unary default op operand.bare

/-- The expressions at no place. -/
def Expr.bareAll : List Expr → List Expr
  | [] => []
  | e :: es => e.bare :: Expr.bareAll es

/-- The members at no place. -/
def Member.bareAll : List Member → List Member
  | [] => []
  | .property key value :: ms => .property key value.bare :: Member.bareAll ms
  | .spread value :: ms => .spread value.bare :: Member.bareAll ms

end

mutual

theorem Expr.bare_bare : (e : Expr) → e.bare.bare = e.bare
  | .number _ _ | .string _ _ | .boolean _ _ | .null _ | .blob _ _ _ | .identifier _ _
  | .relative _ _ _ => rfl
  | .array _ elements => by simp [Expr.bare, Expr.bareAll_bareAll elements]
  | .object _ members => by simp [Expr.bare, Member.bareAll_bareAll members]
  | .call _ callee args => by
    simp [Expr.bare, Expr.bare_bare callee, Expr.bareAll_bareAll args]
  | .lambda _ _ body => by simp [Expr.bare, Expr.bare_bare body]
  | .binary _ _ left right => by simp [Expr.bare, Expr.bare_bare left, Expr.bare_bare right]
  | .unary _ _ operand => by simp [Expr.bare, Expr.bare_bare operand]

theorem Expr.bareAll_bareAll : (es : List Expr) →
    Expr.bareAll (Expr.bareAll es) = Expr.bareAll es
  | [] => rfl
  | e :: es => by simp [Expr.bareAll, Expr.bare_bare e, Expr.bareAll_bareAll es]

theorem Member.bareAll_bareAll : (ms : List Member) →
    Member.bareAll (Member.bareAll ms) = Member.bareAll ms
  | [] => rfl
  | .property _ value :: ms => by
    simp [Member.bareAll, Expr.bare_bare value, Member.bareAll_bareAll ms]
  | .spread value :: ms => by
    simp [Member.bareAll, Expr.bare_bare value, Member.bareAll_bareAll ms]

end

theorem Expr.bareAll_eq_map (es : List Expr) : Expr.bareAll es = es.map Expr.bare := by
  induction es with
  | nil => rfl
  | cons e es ih => rw [Expr.bareAll, ih, List.map_cons]

/-- Places are no matter of keys. -/
theorem Member.map_key?_bareAll (ms : List Member) :
    (Member.bareAll ms).map Member.key? = ms.map Member.key? := by
  induction ms with
  | nil => rfl
  | cons m ms ih => cases m <;> simp only [Member.bareAll, List.map_cons, Member.key?, ih]

theorem Expr.bareAll_eq {es es' : List Expr} (h : Forall₂ (fun e e' => e.bare = e'.bare) es es') :
    Expr.bareAll es = Expr.bareAll es' := by
  induction h with
  | nil => rfl
  | cons he _ ih => simp [Expr.bareAll, he, ih]

theorem Member.bareAll_eq {ms ms' : List Member}
    (h : Forall₂ (Member.Related fun e e' => e.bare = e'.bare) ms ms') :
    Member.bareAll ms = Member.bareAll ms' := by
  induction h with
  | nil => rfl
  | cons hm _ ih => cases hm with
    | property key he => simp [Member.bareAll, he, ih]
    | spread he => simp [Member.bareAll, he, ih]

theorem Expr.isCallable_bare (e : Expr) : e.bare.isCallable = e.isCallable := by
  cases e <;> rfl

theorem Token.kind_eq_of_bare {t t' : Token} (h : t.bare = t'.bare) : t.kind = t'.kind :=
  (congrArg Token.kind h :)

theorem Token.text_eq_of_bare {t t' : Token} (h : t.bare = t'.bare) : t.text = t'.text :=
  (congrArg Token.text h :)

/-! ## Reading forgets no more than places -/

theorem respects_bare :
    Respects (fun t t' => t.bare = t'.bare) fun e e' => e.bare = e'.bare where
  kind_eq := Token.kind_eq_of_bare
  text_eq := Token.text_eq_of_bare
  callable_eq h := by rw [← Expr.isCallable_bare, h, Expr.isCallable_bare]
  number s s' h _ := by simp [Expr.bare, Token.text_eq_of_bare h]
  string _ _ _ := rfl
  blob s s' h _ := by simp [Expr.bare, Token.text_eq_of_bare h]
  word h _ := by
    simp only [Grammar.word, Token.text_eq_of_bare h]
    repeat' split
    all_goals rfl
  relative s s' hd _ h _ := by
    simp [Expr.bare, Token.text_eq_of_bare hd, Token.text_eq_of_bare h]
  array s s' h := by simp [Expr.bare, Expr.bareAll_eq h]
  object s s' h _ := by simp [Expr.bare, Member.bareAll_eq h]
  call s s' h _ hs := by simp [Expr.bare, h, Expr.bareAll_eq hs]
  lambda s s' _ h := by simp [Expr.bare, h]
  binary s s' op hl hr := by simp [Expr.bare, hl, hr]
  unary s s' op h := by simp [Expr.bare, h]

/-- The places of tokens do not matter to what they are read as, places aside. -/
theorem parseTokens_bare (limit : Nat) {ts ts' : List Token}
    (h : ts.map Token.bare = ts'.map Token.bare) :
    (∃ e e', parseTokens limit ts = .error e ∧ parseTokens limit ts' = .error e' ∧
      e.kind = e'.kind) ∨
    ∃ e e', parseTokens limit ts = .ok e ∧ parseTokens limit ts' = .ok e' ∧ e.bare = e'.bare := by
  refine respects_bare.parseTokens limit ?_
  rw [← List.forall₂_eq_eq_eq, List.forall₂_map_left_iff, List.forall₂_map_right_iff] at h
  exact h

/-- What tokens are read as, places aside, other tokens are read as that differ in places only. -/
theorem exists_parseTokens_of_bare {limit : Nat} {ts found : List Token} {e : Expr}
    (hread : parseTokens limit ts = .ok e) (hbare : found.map Token.bare = ts.map Token.bare) :
    ∃ e', parseTokens limit found = .ok e' ∧ e'.bare = e.bare := by
  rcases parseTokens_bare limit hbare with ⟨_, _, -, hfail, -⟩ | ⟨e', _, he', hok, hsame⟩
  · rw [hread] at hfail
    cases hfail
  · rw [hread] at hok
    cases hok
    exact ⟨e', he', hsame⟩

end LazyConfig
