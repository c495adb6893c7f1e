-- Whether a parenthesis opens a lambda. Its parameters are described as lists of tokens, and
-- reading finds just these, however far it has to look. With a cursor, the names are read before it
-- is known whether they are parameters. The last token stays ahead of a cursor that passes over it,
-- and is never one that may come behind itself.
-- Main statement: a parenthesis opens a lambda if names as parameters and an arrow follow it, and
-- else what is in the parentheses is read as if no parameters had been looked for.
import LazyConfig.Proofs.Source.Spreads
import LazyConfig.Proofs.Source.Walk

namespace LazyConfig

/-! ## Parameters as lists of tokens -/

/-- Names with commas between them. -/
inductive NameList : List Token → List String → Prop
  | single {t : Token} (ht : t.kind = .identifier) : NameList [t] [t.text]
  | cons {t comma : Token} {ts : List Token} {names : List String} (ht : t.kind = .identifier)
      (hcomma : comma.isSymbol "," = true) (h : NameList ts names) :
      NameList (t :: comma :: ts) (t.text :: names)

/-- The parameters of a lambda: none, or names with commas between them and perhaps one after the
last. -/
inductive ParameterList : List Token → List String → Prop
  | empty : ParameterList [] []
  | names {ts : List Token} {names : List String} (h : NameList ts names) : ParameterList ts names
  | trailing {comma : Token} {ts : List Token} {names : List String} (h : NameList ts names)
      (hcomma : comma.isSymbol "," = true) : ParameterList (ts ++ [comma]) names

/-- The tokens start with parameters and a closing parenthesis. -/
def Closes (ts : List Token) (names : List String) (after : List Token) : Prop :=
  ∃ params close, ts = params ++ close :: after ∧ ParameterList params names ∧
    close.isSymbol ")" = true

/-- The tokens start with the parameters of a lambda, in parentheses, and an arrow. -/
def OpensLambda (ts : List Token) (names : List String) (after : List Token) : Prop :=
  ∃ paren params close arrow, ts = paren :: params ++ close :: arrow :: after ∧
    paren.isSymbol "(" = true ∧ ParameterList params names ∧ close.isSymbol ")" = true ∧
    arrow.isSymbol "=>" = true

variable {t u : Token} {ts after rest : List Token} {names : List String}

theorem ParameterList.cons {comma : Token} (ht : t.kind = .identifier)
    (hcomma : comma.isSymbol "," = true) (h : ParameterList ts names) :
    ParameterList (t :: comma :: ts) (t.text :: names) := by
  cases h with
  | empty => exact .trailing (.single ht) hcomma
  | names h => exact .names (.cons ht hcomma h)
  | trailing h hlast => exact .trailing (.cons ht hcomma h) hlast

/-! ## Reading parameters -/

namespace Grammar

theorem closes_of_parameters (h : parameters ts = some (names, after)) : Closes ts names after := by
  fun_induction parameters ts generalizing names with
  | case1 | case3 | case6 | case7 => cases h
  | case2 t rest hclose =>
    cases h
    exact ⟨[], t, rfl, .empty, hclose⟩
  | case4 t hopen hkind u left hcomma ih =>
    obtain ⟨⟨others, after'⟩, hmore, heq⟩ := Option.map_eq_some_iff.mp h
    cases heq
    obtain ⟨params, close, rfl, hparams, hclose⟩ := ih hmore
    exact ⟨t :: u :: params, close, rfl, hparams.cons hkind hcomma, hclose⟩
  | case5 t hopen hkind u left hcomma hclose =>
    cases h
    exact ⟨[t], u, rfl, .names (.single hkind), hclose⟩

theorem isSymbol_of_identifier {symbol : String} (h : t.kind = .identifier) :
    t.isSymbol symbol = false := by
  simp [Token.isSymbol, h]

/-- After names, reading goes on with what follows a name. -/
theorem parameters_append {tail : List Token} (h : NameList ts names)
    (htail : ∀ t : Token, t.kind = .identifier → parameters (t :: tail) = some ([t.text], after)) :
    parameters (ts ++ tail) = some (names, after) := by
  induction h with
  | single ht => exact htail _ ht
  | cons ht hcomma _ ih =>
    rw [List.cons_append, List.cons_append, parameters.eq_def]
    simp [isSymbol_of_identifier ht, ht, hcomma, ih]

theorem parameters_of_closes (h : Closes ts names after) : parameters ts = some (names, after) := by
  obtain ⟨params, close, rfl, hparams, hclose⟩ := h
  have hcomma : ¬close.isSymbol "," = true := fun h =>
    absurd (Token.eq_of_isSymbol h hclose) (by decide)
  have hnil : parameters (close :: after) = some ([], after) := by
    rw [parameters.eq_def]
    exact if_pos hclose
  cases hparams with
  | empty => exact hnil
  | names h =>
    refine parameters_append h fun t ht => ?_
    rw [parameters.eq_def]
    simp [isSymbol_of_identifier ht, ht, hcomma, hclose]
  | @trailing comma ts _ h hlast =>
    rw [List.append_assoc]
    refine parameters_append h fun t ht => ?_
    rw [parameters.eq_def]
    simp [isSymbol_of_identifier ht, ht, hlast, hnil]

/-- Looking ahead finds the parameters of a lambda where a lambda is opened. -/
theorem lambdaHead_eq_some_iff (ht : t.isSymbol "(" = true) :
    lambdaHead rest = some (names, after) ↔ OpensLambda (t :: rest) names after := by
  constructor
  · intro h
    unfold lambdaHead at h
    split at h
    · next arrow left hparameters =>
      split at h
      · next harrow =>
        cases h
        obtain ⟨params, close, rfl, hparams, hclose⟩ := closes_of_parameters hparameters
        exact ⟨t, params, close, arrow, rfl, ht, hparams, hclose, harrow⟩
      · cases h
    · cases h
  · rintro ⟨paren, params, close, arrow, heq, -, hparams, hclose, harrow⟩
    cases heq
    have hparameters : parameters (params ++ close :: arrow :: after) =
        some (names, arrow :: after) :=
      parameters_of_closes ⟨params, close, rfl, hparams, hclose⟩
    change lambdaHead (params ++ close :: arrow :: after) = some (names, after)
    rw [lambdaHead, hparameters]
    exact if_pos harrow

end Grammar

/-! ## Reading them with a cursor -/

namespace Walk

variable {s : Cursor} {n : Nat}

theorem parameters_closed (hs : s.ahead = t :: rest) (hclose : t.isSymbol ")" = true) :
    parameters (n + 1) s = some (.ok (some []), s.step) := by
  rw [parameters, bind_of_ok (eat_of_isSymbol hs hclose)]
  rfl

/-- No parameter starts with such a token. -/
theorem parameters_stop (hs : s.ahead = t :: rest) (hclose : ¬t.isSymbol ")" = true)
    (hkind : ¬t.kind = .identifier) : parameters (n + 1) s = some (.ok none, s) := by
  rw [parameters, bind_of_ok (eat_of_not_isSymbol hs hclose)]
  dsimp only
  rw [bind_of_ok (current_of_ahead hs), if_neg hkind]
  rfl

section

variable (hs : s.ahead = t :: rest) (hkind : t.kind = .identifier)
  (hstep : s.step.ahead = u :: after)

include hs hkind hstep

omit hstep in
/-- A parameter, and what the token behind it decides. -/
theorem parameters_name : parameters (n + 1) s = (do
    match ← eat "," with
    | some _ =>
      let others ← parameters n
      return others.map (t.text :: ·)
    | none =>
      match ← eat ")" with
      | some _ => return some [t.text]
      | none => return none : Walk (Option (List String))) s.step := by
  have hclose : ¬t.isSymbol ")" = true := by simp [Grammar.isSymbol_of_identifier hkind]
  rw [parameters, bind_of_ok (eat_of_not_isSymbol hs hclose)]
  dsimp only
  rw [bind_of_ok (current_of_ahead hs), if_pos hkind]
  exact bind_of_ok (bump_of_ahead hs (by simp [hkind])) _

theorem parameters_name_more (hcomma : u.isSymbol "," = true)
    {found : Option (List String)} {s' : Cursor}
    (hmore : parameters n s.step.step = some (.ok found, s')) :
    parameters (n + 1) s = some (.ok (found.map (t.text :: ·)), s') := by
  rw [parameters_name hs hkind, bind_of_ok (eat_of_isSymbol hstep hcomma)]
  exact bind_of_ok hmore _

theorem parameters_name_last (hcomma : ¬u.isSymbol "," = true) (hclose : u.isSymbol ")" = true) :
    parameters (n + 1) s = some (.ok (some [t.text]), s.step.step) := by
  rw [parameters_name hs hkind, bind_of_ok (eat_of_not_isSymbol hstep hcomma)]
  exact bind_of_ok (eat_of_isSymbol hstep hclose) _

theorem parameters_name_stop (hcomma : ¬u.isSymbol "," = true) (hclose : ¬u.isSymbol ")" = true) :
    parameters (n + 1) s = some (.ok none, s.step) := by
  rw [parameters_name hs hkind, bind_of_ok (eat_of_not_isSymbol hstep hcomma)]
  exact bind_of_ok (eat_of_not_isSymbol hstep hclose) _

end

/-- The names are read that looking ahead finds, and the cursor passes over the parenthesis behind
them. -/
theorem parameters_run (hs : s.ahead = ts) (hne : ts ≠ []) (hn : ts.length ≤ n) :
    ∃ place, parameters n s = some (.ok ((Grammar.parameters ts).map Prod.fst), s.moved place) ∧
      ∀ names after, Grammar.parameters ts = some (names, after) →
        place = s.place + (ts.length - after.length) := by
  cases n with
  | zero => exact absurd (List.length_eq_zero_iff.mp (Nat.le_zero.mp hn)) hne
  | succ n =>
  fun_induction Grammar.parameters ts generalizing s n with
  | case1 => exact absurd rfl hne
  | case2 t rest hclose =>
    refine ⟨s.place + 1, parameters_closed hs hclose, fun names after heq => ?_⟩
    cases heq
    simp
  | case3 t hclose hkind =>
    have hother : ∀ symbol, ¬t.isSymbol symbol = true := fun _ => by
      simp [Grammar.isSymbol_of_identifier hkind]
    exact ⟨s.place + 1,
      parameters_name_stop hs hkind (Cursor.ahead_step_last hs) (hother _) (hother _),
      fun _ _ h => by cases h⟩
  | case4 t hclose hkind u after hcomma ih =>
    have hstep := Cursor.ahead_step hs
    cases after with
    | nil =>
      -- The comma is the last token, and stays ahead.
      have hlast := Cursor.ahead_step_last hstep
      have hclosed : ¬u.isSymbol ")" = true := fun h =>
        absurd (Token.eq_of_isSymbol h hcomma) (by decide)
      have hname : ¬u.kind = .identifier := by simp [(Token.isSymbol_iff.mp hcomma).1]
      cases n with
      | zero => simp at hn
      | succ n =>
      exact ⟨s.place + 2,
        parameters_name_more hs hkind hstep hcomma (parameters_stop hlast hclosed hname),
        fun _ _ h => by cases h⟩
    | cons v rest =>
      cases n with
      | zero => simp at hn
      | succ n =>
      obtain ⟨place, hmore, hplace⟩ := ih (Cursor.ahead_step hstep) (by simp) n
        (by simp only [List.length_cons] at hn ⊢; omega)
      refine ⟨place, ?_, fun names after heq => ?_⟩
      · rw [parameters_name_more hs hkind hstep hcomma hmore, Option.map_map, Option.map_map]
        rfl
      · obtain ⟨⟨others, left⟩, hothers, heq⟩ := Option.map_eq_some_iff.mp heq
        cases heq
        have hshorter := Grammar.parameters_shorter hothers
        rw [hplace _ _ hothers]
        change s.place + 2 + _ = _
        simp only [List.length_cons] at hshorter ⊢
        omega
  | case5 t hclose hkind u after hcomma hclosed =>
    have hstep := Cursor.ahead_step hs
    refine ⟨s.place + 2, parameters_name_last hs hkind hstep hcomma hclosed,
      fun names left heq => ?_⟩
    cases heq
    simp only [List.length_cons]
    omega
  | case6 t hclose hkind u after hcomma hclosed =>
    exact ⟨s.place + 1, parameters_name_stop hs hkind (Cursor.ahead_step hs) hcomma hclosed,
      fun _ _ h => by cases h⟩
  | case7 t rest hclose hkind =>
    exact ⟨s.place, parameters_stop hs hclose hkind, fun _ _ h => by cases h⟩

/-- Behind the closing parenthesis of parameters, the token is ahead that comes next, or the
parenthesis is still ahead as the last token. -/
theorem ahead_of_closes (hs : s.ahead = ts) (h : Closes ts names after) :
    ∃ u left, (s.moved (s.place + (ts.length - after.length))).ahead = u :: left ∧
      (after = u :: left ∨ after = [] ∧ u.isSymbol ")" = true) := by
  obtain ⟨params, close, rfl, -, hclose⟩ := h
  have hplace : s.place + ((params ++ close :: after).length - after.length) =
      s.place + params.length + 1 := by
    simp only [List.length_append, List.length_cons]
    omega
  rw [hplace]
  have hahead := Cursor.ahead_moved _ hs
  cases after with
  | nil => exact ⟨close, [], Cursor.ahead_step_last hahead, .inr ⟨rfl, hclose⟩⟩
  | cons u left => exact ⟨u, left, Cursor.ahead_step hahead, .inl rfl⟩

/-- The parameters of a lambda are found that looking ahead finds, and the cursor passes over the
arrow. -/
theorem lambdaHead_run (hs : s.ahead = t :: rest) (ht : t.isSymbol "(" = true)
    (hn : rest.length < n) :
    ∃ place, lambdaHead n s = some (.ok ((Grammar.lambdaHead rest).map Prod.fst), s.moved place) ∧
      ∀ names after, Grammar.lambdaHead rest = some (names, after) →
        place = s.place + ((t :: rest).length - after.length) := by
  rw [lambdaHead, bind_of_ok (bump_of_ahead hs (Token.ne_eof_of_isSymbol ht))]
  cases rest with
  | nil =>
    -- The opening parenthesis is the last token, and stays ahead.
    have hclose : ¬t.isSymbol ")" = true := fun h => absurd (Token.eq_of_isSymbol h ht) (by decide)
    have hname : ¬t.kind = .identifier := by simp [(Token.isSymbol_iff.mp ht).1]
    obtain ⟨n, rfl⟩ := Nat.exists_eq_add_of_lt hn
    rw [bind_of_ok (parameters_stop (Cursor.ahead_step_last hs) hclose hname)]
    exact ⟨s.place + 1, rfl, fun _ _ h => by cases h⟩
  | cons v rest =>
    obtain ⟨place, hrun, hplace⟩ :=
      parameters_run (Cursor.ahead_step hs) (by simp) (Nat.le_of_lt hn)
    rw [bind_of_ok hrun, Grammar.lambdaHead]
    cases hparameters : Grammar.parameters (v :: rest) with
    | none => exact ⟨place, rfl, fun _ _ h => by cases h⟩
    | some found =>
      obtain ⟨names, after⟩ := found
      obtain ⟨u, left, hahead, hnext⟩ :=
        ahead_of_closes (Cursor.ahead_step hs) (Grammar.closes_of_parameters hparameters)
      rw [← hplace names after hparameters] at hahead
      dsimp only [Option.map_some]
      rcases hnext with rfl | ⟨rfl, hclose⟩
      · by_cases harrow : u.isSymbol "=>" = true
        · rw [bind_of_ok (eat_of_isSymbol hahead harrow)]
          dsimp only
          rw [if_pos harrow]
          refine ⟨place + 1, rfl, fun _ _ heq => ?_⟩
          cases heq
          have hshorter := Grammar.parameters_shorter hparameters
          rw [hplace _ _ hparameters]
          change s.place + 1 + _ + 1 = _
          simp only [List.length_cons] at hshorter ⊢
          omega
        · rw [bind_of_ok (eat_of_not_isSymbol hahead harrow)]
          dsimp only
          rw [if_neg harrow]
          exact ⟨place, rfl, fun _ _ h => by cases h⟩
      · have harrow : ¬u.isSymbol "=>" = true := fun h =>
          absurd (Token.eq_of_isSymbol h hclose) (by decide)
        rw [bind_of_ok (eat_of_not_isSymbol hahead harrow)]
        exact ⟨place, rfl, fun _ _ h => by cases h⟩

variable {expression : Walk Expr}

theorem group_of_some {s' : Cursor} (hs : s.ahead = t :: rest)
    (h : lambdaHead n s = some (.ok (some names), s')) :
    group expression n s = (do
      let body ← expression
      return .lambda (t.span.through body.span) names body : Walk Expr) s' := by
  rw [group, bind_of_ok (current_of_ahead hs)]
  exact bind_of_ok h _

/-- Where there are no parameters, the cursor is put back, and nothing of it has changed. -/
theorem group_of_none {place : Nat} (hs : s.ahead = t :: rest)
    (h : lambdaHead n s = some (.ok none, s.moved place)) :
    group expression n s = parenthesized expression s := by
  rw [group, bind_of_ok (current_of_ahead hs)]
  exact bind_of_ok h _

end Walk

/-! ## Lambdas and parentheses -/

namespace Grammar

/-- What was read and the tokens left, or the fault. -/
def outcome {α : Type} {n : Nat} (x : Except Fault (Parsed α n)) : Except Fault (α × List Token) :=
  x.map fun a => (a.value, a.rest)

variable {inner : Grammar}

theorem group_of_some (h : lambdaHead ts = some (names, after)) :
    outcome (inner.group t ts) = (do
      let (body, left) ← outcome (inner.expression after)
      .ok (.lambda (t.span.through body.span) names body, left)) := by
  unfold group
  split
  · next h' =>
    rw [h] at h'
    cases h'
    cases inner.expression after <;> rfl
  · next h' =>
    rw [h] at h'
    cases h'

theorem group_of_none (h : lambdaHead ts = none) :
    outcome (inner.group t ts) = (do
      let (value, after) ← outcome (inner.expression ts)
      let (_, left) ← outcome (symbol ")" after)
      .ok (value, left)) := by
  unfold group
  split
  · next h' =>
    rw [h] at h'
    cases h'
  · cases inner.expression ts with
    | error e => rfl
    | ok a =>
      change outcome (symbol ")" a.rest >>= _) = outcome (symbol ")" a.rest) >>= _
      cases symbol ")" a.rest <;> rfl

end Grammar

/-- From a parenthesis on, the parameters of a lambda are found if and only if names with commas
between them and perhaps one after the last, or none at all, a closing parenthesis and an arrow
follow it, and they are these names in their order. Then the body is read from behind the arrow, at
the same depth. Else the outcome is that of reading an expression in parentheses from that cursor,
with the same tree, cursor and depth, or the same fault. It does not matter how the expression is
read. Looking ahead in a list decides in the same way. -/
theorem parenthesis_is_decided {s : Cursor} {n : Nat} (hs : s.ahead = t :: rest)
    (ht : t.isSymbol "(" = true) (hn : rest.length < n) (expression : Walk Expr) :
    (∀ names, (∃ s', Walk.lambdaHead n s = some (.ok (some names), s')) ↔
      ∃ after, OpensLambda s.ahead names after) ∧
    (∀ names after, OpensLambda s.ahead names after →
      Walk.group expression n s = (do
        let body ← expression
        return .lambda (t.span.through body.span) names body : Walk Expr)
          (s.moved (s.place + (s.ahead.length - after.length))) ∧
      ∀ inner : Grammar, Grammar.outcome (inner.group t rest) = do
        let (body, left) ← Grammar.outcome (inner.expression after)
        .ok (.lambda (t.span.through body.span) names body, left)) ∧
    ((¬∃ names after, OpensLambda s.ahead names after) →
      Walk.group expression n s = Walk.parenthesized expression s ∧
      ∀ inner : Grammar, Grammar.outcome (inner.group t rest) = do
        let (value, after) ← Grammar.outcome (inner.expression rest)
        let (_, left) ← Grammar.outcome (Grammar.symbol ")" after)
        .ok (value, left)) := by
  obtain ⟨place, hrun, hplace⟩ := Walk.lambdaHead_run hs ht hn
  have hopens : ∀ names after, OpensLambda s.ahead names after ↔
      Grammar.lambdaHead rest = some (names, after) := by
    intro names after
    rw [hs, Grammar.lambdaHead_eq_some_iff ht]
  refine ⟨fun names => ?_, fun names after hopen => ?_, fun hnone => ?_⟩
  · simp only [hopens, hrun, Option.some.injEq, Prod.mk.injEq, Except.ok.injEq, exists_and_left,
      exists_eq', and_true]
    simp [Option.map_eq_some_iff]
  · have hhead := (hopens names after).mp hopen
    rw [hhead] at hrun
    rw [hs, ← hplace names after hhead]
    exact ⟨Walk.group_of_some hs hrun, fun _ => Grammar.group_of_some hhead⟩
  · have hhead : Grammar.lambdaHead rest = none := by
      rw [Option.eq_none_iff_forall_ne_some]
      exact fun found hfound => hnone ⟨found.1, found.2, (hopens _ _).mpr hfound⟩
    rw [hhead] at hrun
    exact ⟨Walk.group_of_none hs hrun, fun _ => Grammar.group_of_none hhead⟩

/-- A name in parentheses is a parameter before an arrow, also with a comma behind it, and an
expression before an operator. -/
theorem parenthesis_is_decided_behind_a_name :
    let a : Token := ⟨.identifier, ⟨1, 2⟩, "a"⟩
    let arrow : Cursor := ⟨[⟨.punct, ⟨0, 1⟩, "("⟩, a, ⟨.punct, ⟨2, 3⟩, ","⟩, ⟨.punct, ⟨3, 4⟩, ")"⟩,
      ⟨.punct, ⟨4, 6⟩, "=>"⟩, .endAt 6], 0, 0, 0⟩
    let plus : Cursor := ⟨[⟨.punct, ⟨0, 1⟩, "("⟩, a, ⟨.punct, ⟨2, 3⟩, ")"⟩, ⟨.punct, ⟨3, 4⟩, "+"⟩,
      .endAt 4], 0, 0, 0⟩
    let expression := Walk.expression 30 0
    (OpensLambda arrow.ahead ["a"] [.endAt 6] ∧
      ∃ s', Walk.lambdaHead 6 arrow = some (.ok (some ["a"]), s')) ∧
    (¬∃ names after, OpensLambda plus.ahead names after) ∧
      Walk.group expression 5 plus = Walk.parenthesized expression plus := by
  intro a arrow plus expression
  have hname : NameList [a] ["a"] := .single rfl
  have hopen : OpensLambda arrow.ahead ["a"] [.endAt 6] :=
    ⟨⟨.punct, ⟨0, 1⟩, "("⟩, [a, ⟨.punct, ⟨2, 3⟩, ","⟩], ⟨.punct, ⟨3, 4⟩, ")"⟩,
      ⟨.punct, ⟨4, 6⟩, "=>"⟩, rfl, by decide, .trailing hname (by decide), by decide, by decide⟩
  have hnone : ¬∃ names after, OpensLambda plus.ahead names after := by
    rintro ⟨names, after, hplus⟩
    have hsome := (Grammar.lambdaHead_eq_some_iff (by decide)).mpr hplus
    exact nomatch hsome
  have hfound :=
    (parenthesis_is_decided (s := arrow) (n := 6) rfl (by decide) (by decide) expression).1
  have hgroup :=
    (parenthesis_is_decided (s := plus) (n := 5) rfl (by decide) (by decide) expression).2.2
  exact ⟨⟨hopen, (hfound ["a"]).mpr ⟨_, hopen⟩⟩, hnone, (hgroup hnone).1⟩

end LazyConfig
