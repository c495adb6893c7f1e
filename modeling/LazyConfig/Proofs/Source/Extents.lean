-- Where the nodes of a tree stand in the text. The tokens that a derivation takes are in order, and
-- each rule builds its span from the first and the last of what it takes.
-- Main statement: each node goes from the start of a token to the end of one, with its children
-- inside of it, one behind the other.
import LazyConfig.Proofs.Source.Derivations
import LazyConfig.Proofs.Source.Tiling

namespace LazyConfig

/-! ## Spans over tokens -/

/-- The span goes from the start of one of the tokens to the end of one of them, and is not
empty. -/
structure Spanned (ts : List Token) (s : Span) : Prop where
  start : ∃ t ∈ ts, t.kind ≠ .eof ∧ t.span.start = s.start
  stop : ∃ t ∈ ts, t.kind ≠ .eof ∧ t.span.stop = s.stop
  nonempty : s.start < s.stop

/-- The tokens stand one behind the other, and only an end takes up nothing. -/
structure InOrder (ts : List Token) : Prop where
  nonempty : ∀ t ∈ ts, t.kind ≠ .eof → t.span.start < t.span.stop
  ordered : ts.Pairwise fun t u => t.span.stop ≤ u.span.start

/-- The children stand inside of the node, one behind the other. -/
structure Expr.Nested (e : Expr) : Prop where
  inside : ∀ c ∈ e.children, e.span.start ≤ c.span.start ∧ c.span.stop ≤ e.span.stop
  ordered : e.children.Pairwise fun a b => a.span.stop ≤ b.span.start

variable {ts rest a b m : List Token} {t u : Token} {s s' s'' : Span}

theorem Lexer.Placed.inOrder {cs : List Char} (h : Placed cs ts) : InOrder ts :=
  ⟨h.nonempty, h.ordered⟩

theorem InOrder.sublist (h : InOrder ts) (hsub : rest.Sublist ts) : InOrder rest :=
  ⟨fun t ht => h.nonempty t (hsub.subset ht), h.ordered.sublist hsub⟩

theorem InOrder.spanned (h : InOrder ts) (ht : t ∈ ts) (hkind : t.kind ≠ .eof) :
    Spanned [t] t.span :=
  ⟨⟨t, by simp, hkind, rfl⟩, ⟨t, by simp, hkind, rfl⟩, h.nonempty t ht hkind⟩

theorem InOrder.spanned_symbol {symbol : String} (h : InOrder ts) (ht : t ∈ ts)
    (hsymbol : t.isSymbol symbol = true) : Spanned [t] t.span :=
  h.spanned ht (by simp [(Token.isSymbol_iff.mp hsymbol).1])

namespace Spanned

theorem mono (h : Spanned a s) (hab : a ⊆ b) : Spanned b s := by
  obtain ⟨⟨t, ht, hstart⟩, ⟨u, hu, hstop⟩, hnonempty⟩ := h
  exact ⟨⟨t, hab ht, hstart⟩, ⟨u, hab hu, hstop⟩, hnonempty⟩

/-- What stands over earlier tokens ends before what stands over later ones. -/
theorem before (h : Spanned a s) (h' : Spanned b s') (hab : InOrder (a ++ b)) :
    s.stop ≤ s'.start := by
  obtain ⟨t, ht, -, hstop⟩ := h.stop
  obtain ⟨u, hu, -, hstart⟩ := h'.start
  rw [← hstop, ← hstart]
  exact (List.pairwise_append.mp hab.ordered).2.2 t ht u hu

theorem through (h : Spanned a s) (h' : Spanned b s') (hab : InOrder (a ++ b)) :
    Spanned (a ++ b) (s.through s') := by
  have hbefore := h.before h' hab
  have hfirst := h.nonempty
  have hlast := h'.nonempty
  refine ⟨?_, ?_, ?_⟩
  · obtain ⟨t, ht, hstart⟩ := h.start
    exact ⟨t, List.mem_append_left b ht, hstart⟩
  · obtain ⟨u, hu, hstop⟩ := h'.stop
    exact ⟨u, List.mem_append_right a hu, hstop⟩
  · simp only [Span.through_start, Span.through_stop]
    omega

/-- What stands over tokens between two others stands inside of what goes from the first to the
last. -/
theorem between (h : Spanned a s) (h' : Spanned m s') (h'' : Spanned b s'')
    (hall : InOrder (a ++ (m ++ b))) : s.start ≤ s'.start ∧ s'.stop ≤ s''.stop := by
  have hfirst := h.before h' (hall.sublist (by simp))
  have hlast := h'.before h'' (hall.sublist (List.sublist_append_right a _))
  have := h.nonempty
  have := h''.nonempty
  omega

end Spanned

namespace Grammar

/-! ## What a derivation takes -/

/-- The span stands over the tokens that are taken. -/
def Taken (ts rest : List Token) (s : Span) : Prop := ∃ used, ts = used ++ rest ∧ Spanned used s

/-- Items stand over the tokens of their list, one behind the other. -/
theorem Listed.taken {α : Type} {close : String} {items : List (Item α)} (span : α → Span)
    (h : Listed close ts items rest) (hts : InOrder ts)
    (hitems : ∀ i ∈ items, InOrder i.tokens → Taken i.tokens i.rest (span i.value)) :
    ∃ used, ts = used ++ rest ∧ (∀ v ∈ items.map (·.value), Spanned used (span v)) ∧
      (items.map (·.value)).Pairwise fun v w => (span v).stop ≤ (span w).start := by
  induction h with
  | done => exact ⟨[], rfl, by simp, List.Pairwise.nil⟩
  | @last i =>
    obtain ⟨used, htokens, hspan⟩ := hitems i (by simp) hts
    exact ⟨used, htokens, by simp [hspan], List.pairwise_singleton _ _⟩
  | @more i items t after rest hopen hafter hcomma h ih =>
    obtain ⟨used, htokens, hspan⟩ := hitems i (by simp) hts
    rw [hafter] at htokens
    obtain ⟨others, rfl, hothers, hordered⟩ := ih
      (hts.sublist
      (htokens ▸ ((List.sublist_cons_self t after).trans (List.sublist_append_right used _))))
      fun i hi => hitems i (by simp [hi])
    rw [htokens] at hts
    refine ⟨used ++ t :: others, by simp [htokens], ?_, ?_⟩
    · rw [List.map_cons, List.forall_mem_cons]
      exact ⟨hspan.mono (by simp), fun v hv => (hothers v hv).mono fun u hu => by simp [hu]⟩
    · rw [List.map_cons, List.pairwise_cons]
      refine ⟨fun v hv => hspan.before (hothers v hv) (hts.sublist ?_), hordered⟩
      simp

theorem Taken.suffix {ts' : List Token} (h : Taken ts rest s) (hts : ts <:+ ts') :
    Taken ts' rest s := by
  obtain ⟨used, rfl, hspan⟩ := h
  obtain ⟨front, rfl⟩ := hts
  exact ⟨front ++ used, by simp, hspan.mono (List.subset_append_right front used)⟩

/-- A span goes on up to what closes a list, and encloses the items. -/
theorem Taken.closed {cs : List Expr} {close : Token} {symbol : String} (ha : Spanned a s)
    (hall : InOrder (a ++ (m ++ close :: rest))) (hclose : close.isSymbol symbol = true)
    (hspans : ∀ c ∈ cs, Spanned m c.span) :
    Taken (a ++ (m ++ close :: rest)) rest (s.through close.span) ∧
      ∀ c ∈ cs, s.stop ≤ c.span.start ∧ s.start ≤ c.span.start ∧ c.span.stop ≤ close.span.stop := by
  have hend : Spanned [close] close.span := hall.spanned_symbol (by simp) hclose
  have hused : InOrder (a ++ (m ++ [close])) := hall.sublist (by simp)
  constructor
  · have hthrough := ha.through (hend.mono (List.subset_append_right m _)) hused
    exact ⟨a ++ (m ++ [close]), by simp, hthrough⟩
  · intro c hc
    have hbefore := ha.before (hspans c hc) (hused.sublist (by simp))
    exact ⟨hbefore, ha.between (hspans c hc) hend hused⟩

/-- A derivation takes the tokens that its expression stands over, and the children stand in it. -/
theorem Derives.taken {n : Nat} {rule : Rule} {e : Expr} (h : Derives n rule ts e rest)
    (hts : InOrder ts) : Taken ts rest e.span ∧ e.Nested := by
  induction h with
  | @number n t rest ht =>
    exact ⟨⟨[t], rfl, hts.spanned (by simp) (by simp [ht])⟩, by simp [Expr.children], .nil⟩
  | @string n t rest text ht =>
    have hkind : t.kind ≠ .eof := by rcases ht with ht | ht <;> simp [ht]
    exact ⟨⟨[t], rfl, hts.spanned (by simp) hkind⟩, by simp [Expr.children], .nil⟩
  | @blob n t rest form ht =>
    exact ⟨⟨[t], rfl, hts.spanned (by simp) (by simp [ht])⟩, by simp [Expr.children], .nil⟩
  | @word n t rest ht =>
    have hspan : Taken (t :: rest) rest t.span := ⟨[t], rfl, hts.spanned (by simp) (by simp [ht])⟩
    unfold Grammar.word
    repeat' split
    all_goals exact ⟨hspan, by simp [Expr.children], .nil⟩
  | @relative n dots t rest hdots ht =>
    have hspan := (hts.spanned (t := dots) (by simp) (by simp [hdots])).through
      (hts.spanned (t := t) (by simp) (by simp [ht])) (hts.sublist (by simp))
    exact ⟨⟨[dots, t], rfl, hspan⟩, by simp [Expr.children], .nil⟩
  | @group n t close ts rest e ht hhead h hclose ih =>
    obtain ⟨⟨used, rfl, hspan⟩, hnested⟩ := ih (hts.sublist (List.sublist_cons_self _ _))
    exact ⟨⟨t :: (used ++ [close]), by simp, hspan.mono fun u hu => by simp [hu]⟩, hnested⟩
  | @lambda n t ts after rest params body ht hhead h ih =>
    obtain ⟨front, rfl⟩ := suffix_of_lambdaHead hhead
    obtain ⟨⟨used, rfl, hspan⟩, -⟩ :=
      ih (hts.sublist ((List.sublist_append_right front after).cons t))
    have hfirst := (hts.spanned_symbol (by simp) ht).mono (b := t :: front) (by simp)
    have hused : InOrder ((t :: front) ++ used) := hts.sublist (by simp)
    have hbefore := hfirst.before hspan hused
    refine ⟨⟨t :: front ++ used, by simp, hfirst.through hspan hused⟩, ?_,
      List.pairwise_singleton _ _⟩
    have hstart : t.span.start ≤ body.span.start := (hfirst.nonempty.trans_le hbefore).le
    exact List.forall_mem_singleton.mpr ⟨hstart, le_rfl⟩
  | @array n t close ts rest items ht hlist h hclose ih =>
    obtain ⟨used, rfl, hspans, hordered⟩ := hlist.taken Expr.span
      (hts.sublist (List.sublist_cons_self _ _)) fun i hi hi' => (ih i hi hi').1
    obtain ⟨htaken, hinside⟩ :=
      Taken.closed (a := [t]) (hts.spanned_symbol (by simp) ht) hts hclose hspans
    exact ⟨htaken, fun c hc => (hinside c hc).2, hordered⟩
  | @object n t close ts rest members ht hlist hproper h hclose ih =>
    obtain ⟨used, rfl, hspans, hordered⟩ := hlist.taken (fun m => m.expr.span)
      (hts.sublist (List.sublist_cons_self _ _)) (by
        simpa using fun m hm hm' => (ih m hm (hm'.sublist m.suffix.sublist)).1.suffix m.suffix)
    have hchildren : ∀ c ∈ (members.map (·.item.value)).map Member.expr, Spanned used c.span := by
      simpa using hspans
    obtain ⟨htaken, hinside⟩ :=
      Taken.closed (a := [t]) (hts.spanned_symbol (by simp) ht) hts hclose hchildren
    refine ⟨htaken, fun c hc => (hinside c hc).2, ?_⟩
    rw [List.map_map] at hordered
    exact List.pairwise_map.mpr hordered
  | single h ih => exact ih hts
  | @call n t close ts after rest callee items h ht hcallable hlist hitems hclose ih ihitems =>
    obtain ⟨⟨first, rfl, hspan⟩, -⟩ := ih hts
    obtain ⟨used, rfl, hspans, hordered⟩ := hlist.taken Expr.span
      (hts.sublist (by simp)) fun i hi hi' => (ihitems i hi hi').1
    have hcallee : Spanned (first ++ [t]) callee.span :=
      hspan.mono (List.subset_append_left first _)
    have hend := hts.spanned_symbol (t := close) (by simp) hclose
    have hbefore := hspan.before hend (hts.sublist (by simp))
    have hall :
        first ++ t :: (used ++ close :: rest) = (first ++ [t]) ++ (used ++ close :: rest) := by simp
    rw [hall] at hts ⊢
    obtain ⟨htaken, hinside⟩ := Taken.closed hcallee hts hclose hspans
    refine ⟨htaken, List.forall_mem_cons.mpr ⟨⟨le_rfl, ?_⟩, fun c hc => (hinside c hc).2⟩,
      List.pairwise_cons.mpr ⟨fun c hc => (hinside c hc).1, hordered⟩⟩
    exact hbefore.trans hend.nonempty.le
  | chain h _ ih => exact ih hts
  | plain h _ ih => exact ih hts
  | @unary n t ts rest e op hop h ih =>
    obtain ⟨⟨used, rfl, hspan⟩, -⟩ := ih (hts.sublist (List.sublist_cons_self _ _))
    have hkind : t.kind ≠ .eof := fun hkind => by simp [unaryOp?, hkind] at hop
    have hfirst := hts.spanned (t := t) (by simp) hkind
    have hused : InOrder ([t] ++ used) := hts.sublist (by simp)
    have hbefore := hfirst.before hspan hused
    have hstart : t.span.start ≤ e.span.start := (hfirst.nonempty.trans_le hbefore).le
    exact ⟨⟨t :: used, by simp, hfirst.through hspan hused⟩,
      List.forall_mem_singleton.mpr ⟨hstart, le_rfl⟩, List.pairwise_singleton _ _⟩
  | first least h ih => exact ih hts
  | @binary n least t ts after rest l r op h hop hleast hright ih ihright =>
    obtain ⟨⟨first, rfl, hfirst⟩, -⟩ := ih hts
    obtain ⟨⟨last, rfl, hlast⟩, -⟩ := ihright (hts.sublist (by simp))
    have hlast' : Spanned (t :: last) r.span := hlast.mono (List.subset_cons_self t last)
    have hused : InOrder (first ++ t :: last) := hts.sublist (by simp)
    have hbefore := hfirst.before hlast' hused
    have hstart : l.span.start ≤ r.span.start := (hfirst.nonempty.trans_le hbefore).le
    have hstop : l.span.stop ≤ r.span.stop := hbefore.trans hlast.nonempty.le
    refine ⟨⟨first ++ t :: last, by simp, hfirst.through hlast' hused⟩, ?_,
      List.pairwise_pair.mpr hbefore⟩
    exact List.forall_mem_cons.mpr ⟨⟨le_rfl, hstop⟩, List.forall_mem_singleton.mpr ⟨hstart, le_rfl⟩⟩
  | climb h _ ih => exact ih hts

/-- So does every part of it. -/
theorem Derives.spanned {n : Nat} {rule : Rule} {e p : Expr} (h : Derives n rule ts e rest)
    (hts : InOrder ts) (hp : p.PartOf e) : Spanned ts p.span ∧ p.Nested := by
  obtain ⟨n, rule, ts', rest', hpart, hsuffix⟩ := h.part hp
  obtain ⟨⟨used, rfl, hspan⟩, hnested⟩ := hpart.taken (hts.sublist hsuffix.sublist)
  exact ⟨hspan.mono fun t ht => hsuffix.subset (List.mem_append_left rest' ht), hnested⟩

end Grammar

open Grammar

/-! ## Trees of a source -/

theorem exists_derives_of_parse {limit : Nat} {bytes : Bytes} {e : Expr}
    (h : parse limit bytes = .ok e) :
    ∃ ts rest, tokenize bytes = .ok ts ∧ InOrder ts ∧ Derives limit (.climb 0) ts e rest := by
  obtain ⟨ts, hts, he⟩ := exists_tokens_of_parse h
  obtain ⟨cs, -, htiles⟩ := tiles_tokenize hts
  obtain ⟨rest, hderives, -⟩ := parseTokens_eq_ok_iff.mp he
  exact ⟨ts, rest, hts, htiles.placed.inOrder, hderives⟩

/-- In the tree that a source is read as, each node goes from the start of a token to the end of
one, is not empty, and has its children inside of it, one behind the other. -/
theorem nodes_nest {limit : Nat} {bytes : Bytes} {e : Expr} (h : parse limit bytes = .ok e) :
    ∃ ts, tokenize bytes = .ok ts ∧ ∀ p : Expr, p.PartOf e → Spanned ts p.span ∧ p.Nested := by
  obtain ⟨ts, rest, hts, horder, hderives⟩ := exists_derives_of_parse h
  exact ⟨ts, hts, fun p hp => hderives.spanned horder hp⟩

/-- The group of the first argument is no node, and the outer call starts where the inner one
does. -/
theorem nodes_nest_in_calls :
    ∃ e, parse 2 (Utf8.encode "f((a), [1])(-2)") = .ok e ∧
      ∃ ts, tokenize (Utf8.encode "f((a), [1])(-2)") = .ok ts ∧
        ∀ p : Expr, p.PartOf e → Spanned ts p.span ∧ p.Nested := by
  have h : parse 2 (Utf8.encode "f((a), [1])(-2)") =
      .ok (.call ⟨0, 15⟩
        (.call ⟨0, 11⟩ (.identifier ⟨0, 1⟩ "f")
          [.identifier ⟨3, 4⟩ "a", .array ⟨7, 10⟩ [.number ⟨8, 9⟩ "1"]])
        [.unary ⟨12, 14⟩ .neg (.number ⟨13, 14⟩ "2")]) := by decide +kernel
  exact ⟨_, h, nodes_nest h⟩

end LazyConfig
