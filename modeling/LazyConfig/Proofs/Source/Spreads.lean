-- Spreads in object literals. A member that starts with a name and a parenthesis is read as a call
-- of the name. A word that is no name is left with the parenthesis behind it, and then the literal
-- does not close.
-- Main statements: after each item of a closed list stands a comma or what closes it, and what
-- starts with a name and a parenthesis is a call of the name unless the parenthesis is left.
import LazyConfig.Source.Grammar

namespace LazyConfig

/-! ## Items of a list -/

theorem Grammar.isSymbol_of_symbol {s : String} {ts : List Token} {a : Parsed Span ts.length}
    (h : Grammar.symbol s ts = .ok a) : (Grammar.peek ts).isSymbol s = true := by
  cases ts with
  | nil => cases h
  | cons t rest =>
    simp only [Grammar.symbol] at h
    split at h
    · next ht => exact ht
    · cases h

/-- A token is one symbol only. -/
theorem Token.eq_of_isSymbol {t : Token} {s s' : String} (h : t.isSymbol s = true)
    (h' : t.isSymbol s' = true) : s = s' := by
  exact (isSymbol_iff.mp h).2.symm.trans (isSymbol_iff.mp h').2

theorem Grammar.unaryOp?_of_isSymbol {t : Token} {s : String} (h : t.isSymbol s = true) :
    Grammar.unaryOp? t = UnaryOp.ofSymbol? s := by
  obtain ⟨hkind, htext⟩ := Token.isSymbol_iff.mp h
  rw [Grammar.unaryOp?, if_pos hkind, htext]

theorem Grammar.binaryOp?_of_isSymbol {t : Token} {s : String} (h : t.isSymbol s = true) :
    Grammar.binaryOp? t = BinaryOp.ofSymbol? s := by
  obtain ⟨hkind, htext⟩ := Token.isSymbol_iff.mp h
  rw [Grammar.binaryOp?, if_pos hkind, htext]

/-- After each item of a closed list stands a comma or what closes it. -/
theorem Grammar.followed_of_delimited {α : Type} {close : String} {item : Parser α}
    {Q : α → List Token → Prop} (hitem : ∀ ts a, item ts = .ok a → Q a.value a.rest)
    {ts : List Token} {a : Parsed (List α) (ts.length + 1)}
    (h : Grammar.delimited close item ts = .ok a)
    (hclose : (Grammar.peek a.rest).isSymbol close = true) :
    ∀ v ∈ a.value, ∃ rest, Q v rest ∧
      ((Grammar.peek rest).isSymbol "," = true ∨ (Grammar.peek rest).isSymbol close = true) := by
  unfold Grammar.delimited at h
  split at h
  · cases h
    simp
  split at h
  · cases h
  · next first shorter hfirst =>
    cases h
    cases hclose
  · next first t rest shorter hfirst =>
    have hQ := hitem _ _ hfirst
    split at h
    · next hcomma =>
      split at h
      · cases h
      · next others left shorter' hothers =>
        cases h
        have hlt : rest.length < ts.length := by
          simp only [List.length_cons] at shorter
          omega
        intro v hv
        rcases List.mem_cons.mp hv with rfl | hv
        · exact ⟨_, hQ, .inl hcomma⟩
        · exact followed_of_delimited hitem hothers hclose v hv
    · cases h
      intro v hv
      rw [List.mem_singleton] at hv
      subst hv
      exact ⟨_, hQ, .inr hclose⟩
  termination_by ts.length
  decreasing_by exact hlt

theorem Grammar.ne_spread_of_property {g : Grammar} {key : String} {ts : List Token}
    {a : Parsed Member (ts.length + 1)} (h : g.property key ts = .ok a) (e : Expr) :
    a.value ≠ .spread e := by
  obtain ⟨_, -, h⟩ := Lexer.bind_ok h
  obtain ⟨_, -, h⟩ := Lexer.bind_ok h
  cases h
  exact Member.noConfusion

/-! ## Calls of a name -/

/-- A name with argument lists after it. -/
def Expr.isNamedCall : Expr → Bool
  | .call _ (.identifier _ _) _ => true
  | .call _ callee _ => callee.isNamedCall
  | _ => false

theorem Expr.isNamedCall_call {callee : Expr} (h : callee.isNamedCall = true) (span : Span)
    (args : List Expr) : (Expr.call span callee args).isNamedCall = true := by
  cases callee <;> simp_all [isNamedCall]

/-- Arguments after a name, or after a call of one, make a call of the name. -/
theorem Grammar.isNamedCall_calls {inside : Grammar.Inside} {callee : Expr} {ts : List Token}
    (h : callee.isNamedCall = true ∨
      (∃ s name, callee = .identifier s name) ∧ (Grammar.peek ts).isSymbol "(" = true)
    {a : Parsed Expr (ts.length + 1)} (ha : Grammar.calls inside callee ts = .ok a) :
    a.value.isNamedCall = true := by
  fun_induction Grammar.calls inside callee ts with
  | case1 =>
    cases ha
    rcases h with h | ⟨-, h⟩
    · exact h
    · cases h
  | case2 | case3 | case4 | case5 => cases ha
  | case6 callee t rest hopen inner _ args after shorter hargs close left shorter'
    hclose value left'
      shorter'' hmore ih =>
    cases ha
    refine ih (.inl ?_) hmore
    rcases h with h | ⟨⟨s, name, rfl⟩, -⟩
    · exact Expr.isNamedCall_call h _ _
    · rfl
  | case7 callee t rest hclosed =>
    cases ha
    rcases h with h | ⟨⟨s, name, rfl⟩, h⟩
    · exact h
    · exact absurd ⟨h, rfl⟩ hclosed

theorem Grammar.calls_of_not_callable {inside : Grammar.Inside} {callee : Expr}
    (h : callee.isCallable = false) (ts : List Token) :
    Grammar.calls inside callee ts = .ok ⟨callee, ts, Nat.lt_succ_self _⟩ := by
  cases ts with
  | nil => simp [Grammar.calls]
  | cons t rest => simp [Grammar.calls, h]

/-- What starts with a name and a parenthesis is a call of the name, or the word is none and the
parenthesis is left. -/
theorem Grammar.isNamedCall_callChain {inside : Grammar.Inside} {t : Token} {rest : List Token}
    {a : Parsed Expr (rest.length + 1)} (hkind : t.kind = .identifier)
    (hopen : (Grammar.peek rest).isSymbol "(" = true)
    (h : Grammar.callChain inside (t :: rest) = .ok a) :
    a.value.isNamedCall = true ∨ (Grammar.peek a.rest).isSymbol "(" = true := by
  simp only [Grammar.callChain, Grammar.primary, hkind, bind, Except.bind] at h
  split at h
  · cases h
  · next b hb =>
    cases h
    by_cases hword : ∃ s name, Grammar.word t = .identifier s name
    · exact .inl (Grammar.isNamedCall_calls (.inr ⟨hword, hopen⟩) hb)
    · have hcallable : (Grammar.word t).isCallable = false := by
        unfold Grammar.word at hword ⊢
        grind [Expr.isCallable]
      rw [Grammar.calls_of_not_callable hcallable] at hb
      cases hb
      exact .inr hopen

end LazyConfig
