-- Reading a text that stands in parentheses. Its tokens are those of the text, further on, and
-- where these end the closing parenthesis comes first. No rule can go on with it, so the text is
-- read as it is alone, one level deeper.
-- Main statement: the limit of levels is a threshold, and parentheses take one level more.
import LazyConfig.Proofs.Source.Derivations
import LazyConfig.Proofs.Source.Enclosed
import LazyConfig.Proofs.Source.Limits

namespace LazyConfig

namespace Grammar

/-! ## Tokens in parentheses -/

/-- The second tokens are the first ones, further on, and have the closing parenthesis before the
end. -/
inductive Enclosed (k : Nat) (close last : Token) : List Token → List Token → Prop
  | ended {t : Token} (ht : t.kind = .eof) : Enclosed k close last [t] [close, last]
  | word {t : Token} {ts ts' : List Token} (ht : t.kind ≠ .eof) (h : Enclosed k close last ts ts') :
      Enclosed k close last (t :: ts) (t.moved k :: ts')

section

variable {k : Nat} {close last t : Token} {ts ts' rest : List Token}

theorem Enclosed.cons (h : Enclosed k close last (t :: rest) ts') (ht : t.kind ≠ .eof) :
    ∃ rest', ts' = t.moved k :: rest' ∧ Enclosed k close last rest rest' := by
  cases h with
  | ended h => exact absurd h ht
  | word _ h => exact ⟨_, rfl, h⟩

theorem Enclosed.symbol {s : String} (h : Enclosed k close last (t :: rest) ts')
    (ht : t.isSymbol s = true) :
    ∃ rest', ts' = t.moved k :: rest' ∧ Enclosed k close last rest rest' :=
  h.cons (by simp [(Token.isSymbol_iff.mp ht).1])

/-- The next token is the same one further on, or comes after the end of the text. -/
theorem Enclosed.peek (h : Enclosed k close last ts ts') :
    (peek ts).kind = .eof ∧ peek ts' = close ∨ peek ts' = (peek ts).moved k := by
  cases h with
  | ended ht => exact .inl ⟨ht, rfl⟩
  | word ht h => exact .inr rfl

variable (hclose : close.isSymbol ")" = true)

include hclose

theorem isSymbol_close {s : String} (hs : s ≠ ")") : close.isSymbol s = false := by
  by_contra hsymbol
  exact hs (Token.eq_of_isSymbol (by simpa using hsymbol) hclose)

theorem Enclosed.peek_isSymbol {s : String} (h : Enclosed k close last ts ts') (hs : s ≠ ")") :
    (Grammar.peek ts').isSymbol s = (Grammar.peek ts).isSymbol s := by
  rcases h.peek with ⟨hend, hpeek⟩ | hpeek
  · rw [hpeek, isSymbol_close hclose hs, Token.isSymbol, hend]
    rfl
  · rw [hpeek, Token.isSymbol_moved]

/-! ## Lambda parameters -/

/-- The names of a lambda are found in both lists, or what is found in the second one is closed by
the parenthesis at its end. -/
theorem Enclosed.parameters (h : Enclosed k close last ts ts') :
    (Grammar.parameters ts = none ∧
      ∀ names left, Grammar.parameters ts' = some (names, left) → left = [last]) ∨
    ∃ names left left', Grammar.parameters ts = some (names, left) ∧
      Grammar.parameters ts' = some (names, left') ∧ Enclosed k close last left left' := by
  fun_induction Grammar.parameters ts generalizing ts' with
  | case1 => cases h
  | case2 t rest ht =>
    obtain ⟨rest', rfl, hrest⟩ := h.symbol ht
    refine .inr ⟨[], rest, rest', rfl, ?_, hrest⟩
    rw [Grammar.parameters.eq_def]
    simp [ht]
  | case3 t ht hkind =>
    obtain ⟨rest', rfl, hrest⟩ := h.cons (by simp [hkind])
    cases hrest
  | case4 t ht hkind u after hcomma ih =>
    obtain ⟨_, rfl, hnext⟩ := h.cons (by simp [hkind])
    obtain ⟨after', rfl, hafter⟩ := hnext.symbol hcomma
    have hsome_iff : ∀ found, Grammar.parameters (t.moved k :: u.moved k :: after') = some found ↔
        ∃ names left, Grammar.parameters after' = some (names, left) ∧
        (t.text :: names, left) = found := by
      intro found
      rw [Grammar.parameters.eq_def]
      simp [ht, hkind, hcomma]
    rcases ih hafter with ⟨hnone, hleft⟩ | ⟨names, left, left', hsome, hsome', hends⟩
    · left
      rw [hnone]
      refine ⟨rfl, fun names left hfound => ?_⟩
      obtain ⟨names', left', hfound', heq⟩ := (hsome_iff _).mp hfound
      cases heq
      exact hleft _ _ hfound'
    · right
      rw [hsome]
      exact ⟨_, left, left', rfl, (hsome_iff _).mpr ⟨names, left', hsome', rfl⟩, hends⟩
  | case5 t ht hkind u after hcomma hclosed =>
    obtain ⟨_, rfl, hnext⟩ := h.cons (by simp [hkind])
    obtain ⟨after', rfl, hafter⟩ := hnext.symbol hclosed
    refine .inr ⟨[t.text], after, after', rfl, ?_, hafter⟩
    rw [Grammar.parameters.eq_def]
    simp [ht, hkind, hcomma, hclosed]
  | case6 t ht hkind u after hcomma hclosed =>
    obtain ⟨rest', rfl, hnext⟩ := h.cons (by simp [hkind])
    refine .inl ⟨rfl, fun names left hfound => ?_⟩
    rw [Grammar.parameters.eq_def] at hfound
    cases hnext with
    | ended hend =>
      have hother := isSymbol_close hclose (s := ",") (by decide)
      simp [ht, hkind, hother, hclose] at hfound
      exact hfound.2.symm
    | word hword h => simp [ht, hkind, hcomma, hclosed] at hfound
  | case7 t rest ht hkind =>
    refine .inl ⟨rfl, fun names left hfound => ?_⟩
    rw [Grammar.parameters.eq_def] at hfound
    cases h with
    | ended hend =>
      simp only [hclose, if_true, Option.some.injEq, Prod.mk.injEq] at hfound
      exact hfound.2.symm
    | word hword h => simp [ht, hkind] at hfound

variable (hlast : last.kind = .eof)

include hlast

theorem Enclosed.lambdaHead (h : Enclosed k close last ts ts') :
    (Grammar.lambdaHead ts = none ∧ Grammar.lambdaHead ts' = none) ∨
    ∃ params after after', Grammar.lambdaHead ts = some (params, after) ∧
      Grammar.lambdaHead ts' = some (params, after') ∧ Enclosed k close last after after' := by
  have hend : last.isSymbol "=>" = false := by simp [Token.isSymbol, hlast]
  have harrow := isSymbol_close hclose (s := "=>") (by decide)
  unfold Grammar.lambdaHead
  rcases h.parameters hclose with ⟨hnone, hleft⟩ | ⟨names, left, left', hsome, hsome', hends⟩
  · left
    rw [hnone]
    refine ⟨rfl, ?_⟩
    cases hfound : Grammar.parameters ts' with
    | none => rfl
    | some found =>
      obtain ⟨names, left⟩ := found
      simp [hleft names left hfound, hend]
  · rw [hsome, hsome']
    cases hends with
    | @ended t ht =>
      have hnone : t.isSymbol "=>" = false := by simp [Token.isSymbol, ht]
      exact .inl ⟨by simp [hnone], by simp [harrow]⟩
    | @word t ts ts' ht h =>
      by_cases harrow : t.isSymbol "=>" = true
      · exact .inr ⟨names, ts, ts', by simp [harrow], by simp [harrow], h⟩
      · exact .inl ⟨by simp [harrow], by simp [harrow]⟩

end

/-! ## Derivations in parentheses -/

section

variable {k n : Nat} {close last : Token} {rule : Rule} {ts ts' rest : List Token} {e : Expr}

theorem isSymbol_of_unaryOp? {t : Token} {op : UnaryOp} (h : unaryOp? t = some op) :
    t.isSymbol op.symbol = true := by
  unfold unaryOp? at h
  split at h
  · next hkind =>
    have htext : op.symbol = t.text := by simpa using List.find?_some h
    exact Token.isSymbol_iff.mpr ⟨hkind, htext.symm⟩
  · cases h

/-- A derivation starts with a token that neither ends the text nor closes a group. -/
theorem Derives.starts (h : Derives n rule ts e rest) :
    (peek ts).kind ≠ .eof ∧ (peek ts).isSymbol ")" = false := by
  have hother : ∀ {t : Token} {more : List Token} {s : String}, t.isSymbol s = true → s ≠ ")" →
      (peek (t :: more)).kind ≠ .eof ∧ (peek (t :: more)).isSymbol ")" = false := by
    intro t more s ht hs
    refine ⟨by simp [peek, (Token.isSymbol_iff.mp ht).1], ?_⟩
    by_contra hclosed
    exact hs (Token.eq_of_isSymbol ht (by simpa [peek] using hclosed))
  induction h with
  | number ht | blob ht | word ht | relative ht => simp [peek, Token.isSymbol, ht]
  | string ht => rcases ht with ht | ht <;> simp [peek, Token.isSymbol, ht]
  | group ht | lambda ht => exact hother ht (by decide)
  | array ht => exact hother ht (by decide)
  | object ht => exact hother ht (by decide)
  | @unary _ _ _ _ _ op hop =>
    have hsymbol : op.symbol ≠ ")" := by cases op <;> decide
    exact hother (isSymbol_of_unaryOp? hop) hsymbol
  | single h ih | chain h _ ih | plain h _ ih | first _ h ih | climb h _ ih => exact ih
  | call h _ _ _ _ _ ih => exact ih
  | binary h _ _ _ ih => exact ih

/-- With the closing parenthesis before the end, lists have the same items. -/
theorem Listed.enclosed {α : Type} {symbol : String} {items : List (Item α)}
    {Q : Item α → Prop} (move : α → α) (hclose : close.isSymbol ")" = true)
    (h : Listed symbol ts items rest) (hts : Enclosed k close last ts ts')
    (hstarts : ∀ i ∈ items, (peek i.tokens).kind ≠ .eof)
    (hitems : ∀ i ∈ items, ∀ tokens, Enclosed k close last i.tokens tokens →
      ∃ rest', Enclosed k close last i.rest rest' ∧ Q ⟨tokens, move i.value, rest'⟩) :
    ∃ items' rest', Enclosed k close last rest rest' ∧ Listed symbol ts' items' rest' ∧
      items'.map (·.value) = (items.map (·.value)).map move ∧ ∀ i ∈ items', Q i := by
  have hsame : ∀ {ts ts' : List Token} {s : String}, Enclosed k close last ts ts' →
      (peek ts).kind ≠ .eof → (peek ts').isSymbol s = (peek ts).isSymbol s := by
    intro ts ts' s hts hkind
    rcases hts.peek with ⟨hend, -⟩ | hpeek
    · exact absurd hend hkind
    · rw [hpeek, Token.isSymbol_moved]
  induction h generalizing ts' with
  | done hdone =>
    refine ⟨[], ts', hts, .done ?_, rfl, by simp⟩
    rw [hsame hts (by simp [(Token.isSymbol_iff.mp hdone).1]), hdone]
  | @last i hopen hcomma =>
    obtain ⟨rest', hrest, hq⟩ := hitems i (by simp) ts' hts
    refine ⟨[⟨ts', move i.value, rest'⟩], rest', hrest,
      .last (i := ⟨ts', move i.value, rest'⟩) ?_ ?_, rfl, by simpa using hq⟩
    · rw [hsame hts (hstarts i (by simp)), hopen]
    · rw [hrest.peek_isSymbol hclose (by decide), hcomma]
  | @more i items t after rest hopen hafter hcomma h ih =>
    obtain ⟨left, hleft, hq⟩ := hitems i (by simp) ts' hts
    rw [hafter] at hleft
    obtain ⟨after', rfl, hafter'⟩ := hleft.symbol hcomma
    obtain ⟨items', rest', hrest, hlist, hvalues, hqs⟩ :=
      ih hafter' (fun i hi => hstarts i (by simp [hi]))
      fun i hi => hitems i (by simp [hi])
    refine ⟨⟨ts', move i.value, t.moved k :: after'⟩ :: items', rest', hrest,
      .more (i := ⟨ts', move i.value, t.moved k :: after'⟩) ?_ rfl hcomma hlist, by simp [hvalues],
      ?_⟩
    · rw [hsame hts (hstarts i (by simp)), hopen]
    · exact List.forall_mem_cons.mpr ⟨hq, hqs⟩

/-- No operator follows where the closing parenthesis does. -/
theorem Enclosed.rests {least : Nat} (hclose : close.isSymbol ")" = true)
    (h : Enclosed k close last ts ts') (hrests : Rests least ts) : Rests least ts' := by
  cases h with
  | ended ht =>
    have hnone : binaryOp? close = none := binaryOp?_of_isSymbol hclose
    simp [Rests, hnone]
  | word ht h => simpa [Rests, binaryOp?_moved] using hrests

theorem ReadAsKey.kind {t : Token} {key : String} (h : ReadAsKey t key) :
    t.kind ≠ .eof := by
  rcases h with ⟨ht, -⟩ | ⟨ht | ht, -⟩
  all_goals simp [ht]

theorem ReadAsKey.moved {t : Token} {key : String} (h : ReadAsKey t key) (k : Nat) :
    ReadAsKey (t.moved k) key :=
  h.imp_right fun ⟨ht, htext⟩ => ⟨ht, contents_moved k htext⟩

theorem MemberItem.Proper.starts {m : MemberItem} (h : m.Proper) :
    (peek m.item.tokens).kind ≠ .eof := by
  obtain ⟨⟨tokens, value, rest⟩, _ | ⟨t, colon, key⟩⟩ := m
  · obtain ⟨t, more, rfl, ht, -⟩ := h
    simp [MemberItem.item, peek, ht]
  · exact ReadAsKey.kind h.1

/-- A member is one in parentheses, if its expression is derived there. -/
theorem MemberItem.Proper.enclosed {m : MemberItem} (hclose : close.isSymbol ")" = true)
    (h : m.Proper) (hderives : ∀ ts', Enclosed k close last m.tokens ts' →
      ∃ rest', Enclosed k close last m.rest rest' ∧ Derives n m.rule ts' (m.value.moved k) rest')
    (hts : Enclosed k close last m.item.tokens ts') :
    ∃ rest', Enclosed k close last m.item.rest rest' ∧
      IsMember n ⟨ts', m.item.value.moved k, rest'⟩ := by
  obtain ⟨⟨tokens, value, rest⟩, _ | ⟨t, colon, key⟩⟩ := m
  · obtain ⟨t, more, rfl, ht, hopen⟩ := h
    obtain ⟨more', rfl, hmore⟩ := hts.cons (by simp [ht])
    obtain ⟨rest', hrest, hvalue⟩ := hderives _ hts
    refine ⟨rest', hrest, ⟨⟨t.moved k :: more', value.moved k, rest'⟩, none⟩, rfl, ?_, hvalue⟩
    exact ⟨t.moved k, more', rfl, ht, by rw [hmore.peek_isSymbol hclose (by decide), hopen]⟩
  · have hkey : ReadAsKey t key := h.1
    have hcolon : colon.isSymbol ":" = true := h.2
    obtain ⟨_, rfl, hnext⟩ := hts.cons (ReadAsKey.kind hkey)
    obtain ⟨tokens', rfl, htokens⟩ := hnext.symbol hcolon
    obtain ⟨rest', hrest, hvalue⟩ := hderives _ htokens
    exact ⟨rest', hrest,
      ⟨⟨tokens', value.moved k, rest'⟩, some (t.moved k, colon.moved k, key)⟩, rfl,
      ⟨ReadAsKey.moved hkey k, hcolon⟩, hvalue⟩

/-- What is derived from tokens is derived from them in parentheses, further on. -/
theorem Derives.enclosed (hclose : close.isSymbol ")" = true) (hlast : last.kind = .eof)
    (h : Derives n rule ts e rest) (hts : Enclosed k close last ts ts') :
    ∃ rest', Enclosed k close last rest rest' ∧ Derives n rule ts' (e.moved k) rest' := by
  induction h generalizing ts' with
  | number ht =>
    obtain ⟨rest', rfl, hrest⟩ := hts.cons (by simp [ht])
    exact ⟨rest', hrest, .number ht⟩
  | string ht htext =>
    obtain ⟨rest', rfl, hrest⟩ := hts.cons (by rcases ht with ht | ht <;> simp [ht])
    exact ⟨rest', hrest, .string ht (contents_moved k htext)⟩
  | blob ht =>
    obtain ⟨rest', rfl, hrest⟩ := hts.cons (by simp [ht])
    exact ⟨rest', hrest, .blob ht⟩
  | word ht =>
    obtain ⟨rest', rfl, hrest⟩ := hts.cons (by simp [ht])
    refine ⟨rest', hrest, ?_⟩
    rw [← word_moved]
    exact .word ht
  | relative hdots ht =>
    obtain ⟨_, rfl, hnext⟩ := hts.cons (by simp [hdots])
    obtain ⟨rest', rfl, hrest⟩ := hnext.cons (by simp [ht])
    exact ⟨rest', hrest, .relative hdots ht⟩
  | group ht hhead h hclosed ih =>
    obtain ⟨_, rfl, hnext⟩ := hts.symbol ht
    obtain ⟨left, hleft, hbody⟩ := ih hnext
    obtain ⟨rest', rfl, hrest⟩ := hleft.symbol hclosed
    rcases hnext.lambdaHead hclose hlast with ⟨-, hnone⟩ | ⟨_, _, _, hsome, -⟩
    · exact ⟨rest', hrest, .group ht hnone hbody hclosed⟩
    · rw [hhead] at hsome
      cases hsome
  | lambda ht hhead h ih =>
    obtain ⟨_, rfl, hnext⟩ := hts.symbol ht
    rcases hnext.lambdaHead hclose hlast with ⟨hnone, -⟩ | ⟨_, _, _, hsome, hsome', hafter⟩
    · rw [hhead] at hnone
      cases hnone
    · rw [hhead] at hsome
      cases hsome
      obtain ⟨rest', hrest, hbody⟩ := ih hafter
      refine ⟨rest', hrest, ?_⟩
      rw [Expr.moved, Span.through_moved, ← Expr.span_moved]
      exact .lambda ht hsome' hbody
  | @array n t _ _ _ items ht hlist h hclosed ih =>
    obtain ⟨_, rfl, hnext⟩ := hts.symbol ht
    obtain ⟨items', left, hleft, hlist', hvalues, hitems⟩ := hlist.enclosed (Expr.moved k)
      (Q := fun i => Derives n (.climb 0) i.tokens i.value i.rest) hclose hnext
      (fun i hi => (h i hi).starts.1) fun i hi _ htokens => ih i hi htokens
    obtain ⟨rest', rfl, hrest⟩ := hleft.symbol hclosed
    refine ⟨rest', hrest, ?_⟩
    rw [Expr.moved, Expr.movedAll_eq_map, ← hvalues, Span.through_moved]
    exact .array (t := t.moved k) ht hlist' hitems hclosed
  | @object n t _ _ _ members ht hlist hproper h hclosed ih =>
    obtain ⟨_, rfl, hnext⟩ := hts.symbol ht
    obtain ⟨items', left, hleft, hlist', hvalues, hitems⟩ := hlist.enclosed (Member.moved k)
      (Q := IsMember n) hclose hnext
      (by simpa using fun m hm => (hproper m hm).starts)
      (by simpa using fun m hm _ htokens =>
        (hproper m hm).enclosed hclose (fun _ => ih m hm) htokens)
    obtain ⟨rest', rfl, hrest⟩ := hleft.symbol hclosed
    refine ⟨rest', hrest, ?_⟩
    have hmembers : items'.map (·.value) = (members.map (·.item.value)).map (Member.moved k) := by
      simp [hvalues]
    rw [Expr.moved, Member.movedAll_eq_map, ← hmembers, Span.through_moved]
    exact .of_members (t := t.moved k) ht hlist' hitems hclosed
  | single h ih =>
    obtain ⟨rest', hrest, hsingle⟩ := ih hts
    exact ⟨rest', hrest, .single hsingle⟩
  | @call n t _ _ _ _ callee items h ht hcallable hlist hitems hclosed ih ihitems =>
    obtain ⟨_, hafter, hcallee⟩ := ih hts
    obtain ⟨_, rfl, hnext⟩ := hafter.symbol ht
    obtain ⟨items', left, hleft, hlist', hvalues, hitems'⟩ := hlist.enclosed (Expr.moved k)
      (Q := fun i => Derives n (.climb 0) i.tokens i.value i.rest) hclose hnext
      (fun i hi => (hitems i hi).starts.1) fun i hi _ htokens => ihitems i hi htokens
    obtain ⟨rest', rfl, hrest⟩ := hleft.symbol hclosed
    refine ⟨rest', hrest, ?_⟩
    rw [Expr.moved, Expr.movedAll_eq_map, ← hvalues, Span.through_moved, ← Expr.span_moved]
    exact .call hcallee ht (by simpa using hcallable) hlist' hitems' hclosed
  | chain h hstop ih =>
    obtain ⟨rest', hrest, hcalls⟩ := ih hts
    refine ⟨rest', hrest, .chain hcalls ?_⟩
    rwa [hrest.peek_isSymbol hclose (by decide), Expr.isCallable_moved]
  | plain h hfirst ih =>
    obtain ⟨rest', hrest, hchain⟩ := ih hts
    refine ⟨rest', hrest, .plain hchain ?_⟩
    rcases hts.peek with ⟨hend, -⟩ | hpeek
    · exact absurd hend h.starts.1
    · rw [hpeek, unaryOp?_moved, hfirst]
  | unary hop h ih =>
    obtain ⟨_, rfl, hnext⟩ := hts.symbol (isSymbol_of_unaryOp? hop)
    obtain ⟨rest', hrest, hoperand⟩ := ih hnext
    refine ⟨rest', hrest, ?_⟩
    rw [Expr.moved, Span.through_moved, ← Expr.span_moved]
    exact .unary hop hoperand
  | first least h ih =>
    obtain ⟨rest', hrest, hoperand⟩ := ih hts
    exact ⟨rest', hrest, .first least hoperand⟩
  | @binary _ _ t _ _ _ _ _ _ h hop hleast hright ih ihright =>
    obtain ⟨_, hafter, hleft⟩ := ih hts
    have hkind : t.kind ≠ .eof := fun hkind => by simp [binaryOp?, hkind] at hop
    obtain ⟨_, rfl, hnext⟩ := hafter.cons hkind
    obtain ⟨rest', hrest, hright'⟩ := ihright hnext
    refine ⟨rest', hrest, ?_⟩
    rw [Expr.moved, Span.through_moved, ← Expr.span_moved, ← Expr.span_moved]
    exact .binary hleft hop hleast hright'
  | climb h hrests ih =>
    obtain ⟨rest', hrest, hoperators⟩ := ih hts
    exact ⟨rest', hrest, .climb hoperators (hrest.rests hclose hrests)⟩

end

/-! ## Whole texts in parentheses -/

section

variable {n : Nat} {t u : Token} {ts ts' after rest rest' : List Token} {e e' : Expr}

/-- What is derived from the same tokens leaves the same ones. -/
theorem Derives.rest_unique (h : Derives n (.climb 0) ts e rest)
    (h' : Derives n (.climb 0) ts e' rest') :
    rest = rest' := by
  obtain ⟨inside, -, hdeep⟩ := exists_deep n n 0
  obtain ⟨_, hread⟩ : Reads (Grammar.climb (Grammar.operand inside) 0 ts) e rest := h.reads hdeep
  obtain ⟨_, hread'⟩ : Reads (Grammar.climb (Grammar.operand inside) 0 ts) e' rest' :=
    h'.reads hdeep
  rw [hread] at hread'
  cases hread'
  rfl

/-- After a name, a comma or a closing parenthesis ends the expression. -/
theorem Derives.rest_of_name (h : Derives n (.climb 0) (t :: u :: after) e rest)
    (ht : t.kind = .identifier) (hu : u.isSymbol "," = true ∨ u.isSymbol ")" = true) :
    rest = u :: after := by
  have hnone : binaryOp? u = none ∧ u.isSymbol "(" = false := by
    rcases hu with hu | hu
    all_goals
      rw [binaryOp?_of_isSymbol hu, Token.isSymbol, (Token.isSymbol_iff.mp hu).2]
      exact ⟨rfl, by simp⟩
  refine h.rest_unique (.climb (.first 0 (.plain (.chain (.single (.word ht)) ?_) ?_)) ?_)
  · simp [peek, hnone.2]
  · simp [peek, unaryOp?, ht]
  · simp [Rests, hnone.1]

/-- A whole expression is no lambda's head: it neither closes the parameters nor stops at a name. -/
theorem Derives.lambdaHead_eq_none (h : Derives n (.climb 0) ts e rest)
    (hend : (peek rest).kind = .eof) :
    lambdaHead ts = none := by
  suffices hparameters : parameters ts = none by rw [lambdaHead, hparameters]
  have hopen := h.starts.2
  have hstops : ∀ {t u : Token} {after : List Token}, ts = t :: u :: after → t.kind = .identifier →
      ¬ (u.isSymbol "," = true ∨ u.isSymbol ")" = true) := by
    rintro t u after rfl ht hu
    rw [h.rest_of_name ht hu] at hend
    rcases hu with hu | hu
    all_goals simp [peek, (Token.isSymbol_iff.mp hu).1] at hend
  clear h
  cases ts with
  | nil => rfl
  | cons t rest =>
    have hopen : t.isSymbol ")" = false := hopen
    rw [parameters.eq_def]
    simp only [hopen, Bool.false_eq_true, if_false]
    split
    · next ht =>
      cases rest with
      | nil => rfl
      | cons u after =>
        have hstop := hstops rfl ht
        rw [not_or] at hstop
        simp only [if_neg hstop.1, if_neg hstop.2]
    · rfl

/-- Words up to the end are, further on, words up to the closing parenthesis. -/
theorem enclosed_words {k : Nat} {words : List Token} (close last : Token) {end' : Token}
    (hwords : ∀ t ∈ words, t.kind ≠ .eof) (hend : end'.kind = .eof) :
    Enclosed k close last (words ++ [end']) (words.map (Token.moved k) ++ [close, last]) := by
  induction words with
  | nil => exact .ended hend
  | cons t words ih =>
    exact .word (hwords t (by simp)) (ih fun u hu => hwords u (by simp [hu]))

/-- An expression in parentheses is read one level deeper. -/
theorem parseTokens_enclosed {k limit : Nat} {start close last : Token}
    (hstart : start.isSymbol "(" = true) (hclose : close.isSymbol ")" = true)
    (hlast : last.kind = .eof) (hts : Enclosed k close last ts ts')
    (h : parseTokens limit ts = .ok e) :
    parseTokens (limit + 1) (start :: ts') = .ok (e.moved k) := by
  obtain ⟨rest, hderives, hend⟩ := parseTokens_eq_ok_iff.mp h
  obtain ⟨rest', hrest, hderives'⟩ := hderives.enclosed hclose hlast hts
  obtain rfl : rest' = [close, last] := by
    cases hrest with
    | ended => rfl
    | word hword => exact absurd hend hword
  have hhead : lambdaHead ts' = none := by
    rcases hts.lambdaHead hclose hlast with ⟨-, hnone⟩ | ⟨_, _, _, hsome, -⟩
    · exact hnone
    · rw [hderives.lambdaHead_eq_none hend] at hsome
      cases hsome
  have hgroup : Derives (limit + 1) .primary (start :: ts') (e.moved k) [last] :=
    .group hstart hhead hderives' hclose
  have hopen : unaryOp? start = none := unaryOp?_of_isSymbol hstart
  have hstop : ¬ ((peek [last]).isSymbol "(" = true ∧ (e.moved k).isCallable = true) := by
    simp [peek, Token.isSymbol, hlast]
  have hrests : Rests 0 [last] := by simp [Rests, binaryOp?, hlast]
  exact parseTokens_eq_ok_iff.mpr
    ⟨[last], .climb (.first 0 (.plain (.chain (.single hgroup) hstop) hopen)) hrests, hlast⟩

end

end Grammar

/-! ## The limit -/

section

variable {bytes : Bytes} {ts : List Token}

/-- A text in parentheses, with a line feed before the last one, is read one level deeper as the
same tree. -/
theorem parse_enclosed {limit : Nat} {e : Expr} (h : parse limit bytes = .ok e) :
    parse (limit + 1) (Utf8.encode "(" ++ bytes ++ Utf8.encode "\n)") = .ok (e.moved 1) := by
  obtain ⟨ts, hts, he⟩ := exists_tokens_of_parse h
  obtain ⟨cs, -, htiles⟩ := tiles_tokenize hts
  obtain ⟨words, hwords, htokens⟩ := tokenize_enclosed hts
  obtain ⟨words', hwords', hkinds⟩ := htiles.placed.ended
  obtain rfl : words = words' := List.append_inj_left' (hwords.symm.trans hwords') rfl
  have henclosed : Grammar.Enclosed 1 _ _ ts _ := hwords ▸
    Grammar.enclosed_words (Lexer.closing (bytes.length + 2) (bytes.length + 3))
      (.endAt (bytes.length + 3)) hkinds rfl
  rw [parse_of_tokenize htokens, Grammar.parseTokens_enclosed rfl rfl rfl henclosed he]
  rfl

/-- Below this limit reading is cut off at the first level too many. From there on every limit has
the same outcome, which is never that the nesting is too deep. -/
structure IsThreshold (bytes : Bytes) (least : Nat) : Prop where
  cut : ∀ limit < least, ∃ e, parse limit bytes = .error e ∧ e.kind = .tooDeep (limit + 1) limit
  settled : ∀ limit, least ≤ limit → parse limit bytes = parse least bytes
  enough : ∀ e, parse least bytes = .error e → ∀ depth limit, e.kind ≠ .tooDeep depth limit

theorem exists_isThreshold (h : tokenize bytes = .ok ts) :
    ∃ least, IsThreshold bytes least ∧ (least = 0 ↔ Grammar.NeverNests ts) := by
  obtain ⟨least, hzero, hcut, hsame, hshallow⟩ := Grammar.exists_threshold ts
  refine ⟨least, ⟨fun limit hlimit => ?_, fun limit hlimit => ?_, fun e he => ?_⟩, hzero⟩
  · obtain ⟨f, hf, hkind⟩ := hcut limit hlimit
    exact ⟨⟨f, Utf8.shown bytes⟩, by rw [parse_of_tokenize h, hf]; rfl, hkind⟩
  · rw [parse_of_tokenize h, parse_of_tokenize h, hsame limit hlimit]
  · rw [parse_of_tokenize h] at he
    cases hf : parseTokens least ts with
    | ok a =>
      rw [hf] at he
      cases he
    | error f =>
      rw [hf] at he
      cases he
      exact hshallow f hf

/-- The limit of levels is a threshold, which is zero for a text that never nests. Where a text is
read with a limit, the text in parentheses is read with the next one, as the same tree one place
further on. -/
theorem depth_is_threshold (h : tokenize bytes = .ok ts) :
    (∃ least, IsThreshold bytes least ∧ (least = 0 ↔ Grammar.NeverNests ts)) ∧
      ∀ limit e, parse limit bytes = .ok e →
        parse (limit + 1) (Utf8.encode "(" ++ bytes ++ Utf8.encode "\n)") = .ok (e.moved 1) :=
  ⟨exists_isThreshold h, fun _ _ he => parse_enclosed he⟩

end

/-- An array of a negated number nests, and a comment after it does not hide the parenthesis. -/
theorem depth_is_threshold_of_array :
    ∃ ts e, tokenize (Utf8.encode "[-1] //") = .ok ts ∧ parse 2 (Utf8.encode "[-1] //") = .ok e ∧
      (∃ least, IsThreshold (Utf8.encode "[-1] //") least ∧ (least = 0 ↔ Grammar.NeverNests ts)) ∧
      parse 3 (Utf8.encode "(" ++ Utf8.encode "[-1] //" ++ Utf8.encode "\n)") =
      .ok (e.moved 1) := by
  have hts : tokenize (Utf8.encode "[-1] //") =
      .ok [⟨.punct, ⟨0, 1⟩, "["⟩, ⟨.punct, ⟨1, 2⟩, "-"⟩, ⟨.number, ⟨2, 3⟩, "1"⟩,
      ⟨.punct, ⟨3, 4⟩, "]"⟩,
        .endAt 7] := by decide +kernel
  have he : parse 2 (Utf8.encode "[-1] //") =
      .ok (.array ⟨0, 4⟩ [.unary ⟨1, 3⟩ .neg (.number ⟨2, 3⟩ "1")]) := by
    rw [parse_of_tokenize hts]
    decide +kernel
  have hboth := depth_is_threshold hts
  exact ⟨_, _, hts, he, hboth.1, hboth.2 2 _ he⟩

end LazyConfig
