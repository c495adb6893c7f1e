-- Where errors are raised. When an evaluation fails, one of the evaluations inside of it does,
-- after all before that went well, and so on down to one that fails by itself: all its parts have
-- values, but its own operation has none for them.
-- Main statement: an activity fails with a runtime error exactly if it leads down to an expression
-- that raises the error by itself, and the error has the place of that expression.
import LazyConfig.Proofs.Document.Failing
import Mathlib.Logic.Relation

namespace LazyConfig

open Store Evaluation Relation

/-- What is under way, and from which stage on. -/
abbrev Scene := Activity × Stage

/-! ## Inside of one another -/

/-- In the first scene, when all that comes before went well, the second one is played. -/
inductive Inside (host : Host) : Scene → Scene → Prop
  /-- A request runs the body of the binding. -/
  | force {left name b s made} (hrun : s.reply name = .run b) :
      Inside host (.request left name, ⟨s, made⟩) (.body left b, ⟨s.start name, 0⟩)
  | task {left b e p} (htask : b.task = .expression e) :
      Inside host (.body (left + 1) b, p) (.expression left b.frame e, p)
  /-- An object literal in property position asks for its properties. -/
  | property {left b front key e later entries p p'}
      (htask : b.task = .members (front ++ .property key e :: later))
      (hfront : Succeeds host
        (forceMembers host left (innerOf host left) b.frame b.path [] front) p entries p') :
      Inside host (.body (left + 1) b, p) (.request left (childPath b.path key), p')
  | spread {left b front e later entries p p'}
      (htask : b.task = .members (front ++ .spread e :: later))
      (hfront : Succeeds host
        (forceMembers host left (innerOf host left) b.frame b.path [] front) p entries p') :
      Inside host (.body (left + 1) b, p) (.expression left b.frame e, p')
  | element {left frame span front e later vs p p'}
      (hfront : Succeeds host (evalList host left (innerOf host left) frame front) p vs p') :
      Inside host (.expression left frame (.array span (front ++ e :: later)), p)
        (.expression left frame e, p')
  | member {left frame span front m later entries p p'}
      (hfront :
        Succeeds host (evalMembers host left (innerOf host left) frame [] front) p entries p') :
      Inside host (.expression left frame (.object span (front ++ m :: later)), p)
        (.expression left frame m.expr, p')
  | callee {left frame span callee args p} :
      Inside host (.expression left frame (.call span callee args), p)
        (.expression left frame callee, p)
  | argument {left frame span callee front e later id f vs p p' p''}
      (hcallee :
        Succeeds host (eval host left (innerOf host left) frame callee) p (.function id f) p')
      (hfront : Succeeds host (evalList host left (innerOf host left) frame front) p' vs p'') :
      Inside host (.expression left frame (.call span callee (front ++ e :: later)), p)
        (.expression left frame e, p'')
  | call {left frame span callee args id f vs p p' p''}
      (hcallee :
        Succeeds host (eval host left (innerOf host left) frame callee) p (.function id f) p')
      (hargs : Succeeds host (evalList host left (innerOf host left) frame args) p' vs p'') :
      Inside host (.expression left frame (.call span callee args), p) (.call left frame f vs, p'')
  | left {left frame span op l r p} :
      Inside host (.expression left frame (.binary span op l r), p) (.expression left frame l, p)
  | right {left frame span op l r a p p'}
      (hleft : Succeeds host (eval host left (innerOf host left) frame l) p a p')
      (hopen : op.decidedBy a = false) :
      Inside host (.expression left frame (.binary span op l r), p) (.expression left frame r, p')
  | operand {left frame span op e p} :
      Inside host (.expression left frame (.unary span op e), p) (.expression left frame e, p)
  /-- A name asks for the binding that it stands for. -/
  | name {left frame span name path s made} (henv : frame.env.lookup name = none)
      (hpath : s.scoped? name frame.scopes = some path) :
      Inside host (.expression left frame (.identifier span name), ⟨s, made⟩)
        (.request left path, ⟨s, made⟩)
  | relative {left frame span level name scope s made} (hscope : frame.scopes[level]? = some scope)
      (hbound : s.contains (childPath scope name) = true) :
      Inside host (.expression left frame (.relative span level name), ⟨s, made⟩)
        (.request left (childPath scope name), ⟨s, made⟩)
  /-- A call of a lambda evaluates its body, one level further in. -/
  | lambda {left frame params body scopes env args p} (harity : args.length = params.length) :
      Inside host (.call (left + 1) frame (.lambda params body scopes env) args, p)
        (.expression left ⟨frame.owner, scopes, params.zip args ++ env⟩ body, p)
  /-- An inclusion asks for the document in the file. -/
  | document {left frame path name p p'}
      (hload : Succeeds host (liftM (Attempt.loadFile host path)) p name p') :
      Inside host (.call left frame (.builtin .document) [.string path], p) (.request left name, p')

/-- In the scene an expression raises an error by itself: what it needs has values, but its own
operation has none. A call raises the errors of a function that refuses its arguments. A spread
stands in documents as the expression that it spreads, and that is no object. -/
inductive Faults (host : Host) : Scene → Expr → RuntimeCause → Prop
  | number {left frame span text cause p} (h : Value.ofNumber text = .error cause) :
      Faults host (.expression left frame (.number span text), p) (.number span text) cause
  | blob {left frame span form text cause p} (h : Value.ofBlob form text = .error cause) :
      Faults host (.expression left frame (.blob span form text), p) (.blob span form text) cause
  | name {left frame span name p} (henv : frame.env.lookup name = none)
      (hscopes : p.store.scoped? name frame.scopes = none)
      (hbuiltin : Builtin.ofName? name = none) :
      Faults host (.expression left frame (.identifier span name), p) (.identifier span name)
        (.unknownName name)
  | level {left frame span level name p} (hscope : frame.scopes[level]? = none) :
      Faults host (.expression left frame (.relative span level name), p)
        (.relative span level name)
        (.scopeOutOfRange level name)
  | relative {left frame span level name scope p} (hscope : frame.scopes[level]? = some scope)
      (hbound : p.store.contains (childPath scope name) = false) :
      Faults host (.expression left frame (.relative span level name), p)
        (.relative span level name)
        (.unknownName name)
  | callee {left frame span callee args v p p'}
      (hcallee : Succeeds host (eval host left (innerOf host left) frame callee) p v p')
      (hkind : ∀ id f, v ≠ .function id f) :
      Faults host (.expression left frame (.call span callee args), p) (.call span callee args)
        (.notCallable v.typeName)
  | call {left frame span callee args id f vs cause p p' p''}
      (hcallee :
        Succeeds host (eval host left (innerOf host left) frame callee) p (.function id f) p')
      (hargs : Succeeds host (evalList host left (innerOf host left) frame args) p' vs p'')
      (hrefuses : Refuses f vs cause) :
      Faults host (.expression left frame (.call span callee args), p)
        (.call span callee args) cause
  | binary {left frame span op l r a b cause p p' p''}
      (hleft : Succeeds host (eval host left (innerOf host left) frame l) p a p')
      (hopen : op.decidedBy a = false)
      (hright : Succeeds host (eval host left (innerOf host left) frame r) p' b p'')
      (h : Value.binary ⟨frame.owner, p''.made⟩ op a b = .error cause) :
      Faults host (.expression left frame (.binary span op l r), p) (.binary span op l r) cause
  | unary {left frame span op e a cause p p'}
      (hoperand : Succeeds host (eval host left (innerOf host left) frame e) p a p')
      (h : Value.unary op a = .error cause) :
      Faults host (.expression left frame (.unary span op e), p) (.unary span op e) cause
  | member {left frame span front e later entries v p p' p''}
      (hfront :
        Succeeds host (evalMembers host left (innerOf host left) frame [] front) p entries p')
      (hfound : Succeeds host (eval host left (innerOf host left) frame e) p' v p'')
      (hkind : v.object? = none) :
      Faults host (.expression left frame (.object span (front ++ .spread e :: later)), p) e
        (.typeMismatch (.spread v.typeName))
  | spread {left b front e later entries v p p' p''}
      (htask : b.task = .members (front ++ .spread e :: later))
      (hfront : Succeeds host
        (forceMembers host left (innerOf host left) b.frame b.path [] front) p entries p')
      (hfound : Succeeds host (eval host left (innerOf host left) b.frame e) p' v p'')
      (hkind : v.object? = none) :
      Faults host (.body (left + 1) b, p) e (.typeMismatch (.spread v.typeName))

/-- The scene leads down to one in which an expression raises the error by itself, and the error has
the place of this expression. -/
def Raised (host : Host) (x : Scene) (err : RuntimeError) : Prop :=
  ∃ y node, ReflTransGen (Inside host) x y ∧ Faults host y node err.cause ∧
    err.span? = some node.span

variable {host : Host} {left : Nat} {frame : Frame} {p : Stage} {err : RuntimeError}

theorem Raised.inside {x y : Scene} (h : Inside host x y) (hy : Raised host y err) :
    Raised host x err := by
  obtain ⟨z, node, hchain, hfaults, hspan⟩ := hy
  exact ⟨z, node, .head h hchain, hfaults, hspan⟩

theorem Faults.raised {x : Scene} {node : Expr} {cause : RuntimeCause}
    (h : Faults host x node cause) :
    Raised host x ⟨cause, some node.span⟩ := ⟨x, node, .refl, h, rfl⟩

/-! ## Errors on their way in -/

/-- Whenever the activity fails with a runtime error, an expression inside raises it. -/
def Accountable (host : Host) (a : Activity) : Prop :=
  ∀ p err, a.Fails host p (.runtime err) → Raised host (a, p) err

theorem raised_request {name : String} (hbody : ∀ b, Accountable host (.body left b)) :
    Accountable host (.request left name) := by
  rintro ⟨s, made⟩ err h
  obtain ⟨b, hr, hb⟩ := fails_request.mp h
  exact (hbody b _ err hb).inside (.force hr)

/-- The levels of an activity are enough to be accountable for what is inside. -/
structure AccountableAt (host : Host) (left : Nat) : Prop where
  request (name : String) : Accountable host (.request left name)
  expression (frame : Frame) (e : Expr) : Accountable host (.expression left frame e)

theorem raised_body {b : Suspension} (hinside : AccountableAt host left) :
    Accountable host (.body (left + 1) b) := by
  intro p err h
  cases htask : b.task with
  | expression e =>
    have he := (fails_body_expression htask).mp h
    exact (hinside.expression b.frame e p err he).inside (.task htask)
  | members members =>
    obtain ⟨front, m, later, entries, p', rfl, hfront, hm⟩ := (fails_body_members htask).mp h
    rcases fails_mergeMember.mp hm with hm | ⟨inside, v, p'', rfl, hfound, hkind, herr⟩
    · cases m with
      | property key value => exact (hinside.request _ p' err hm).inside (.property htask hfront)
      | spread inside =>
        exact (hinside.expression b.frame inside p' err hm).inside (.spread htask hfront)
    · cases herr
      exact (Faults.spread htask hfront hfound hkind).raised

/-- A function that is called refuses its arguments, or leads to an expression that raises the
error. -/
theorem raised_call {f : Function} {args : List Value}
    (hrequest : ∀ name, Accountable host (.request left name))
    (hinside : ∀ l, left = l + 1 → AccountableAt host l)
    (h : (Activity.call left frame f args).Fails host p (.runtime err)) :
    Refuses f args err.cause ∧ err.span? = none ∨ Raised host (.call left frame f args, p) err := by
  rcases fails_function h with hrefuses | ⟨l, params, body, scopes, env, rfl, rfl, harity, hbody⟩ |
    ⟨path, name, p', rfl, rfl, hload, hvalue⟩
  · exact .inl hrefuses
  · exact .inr (((hinside l rfl).expression _ body p err hbody).inside (.lambda harity))
  · exact .inr ((hrequest name p' err hvalue).inside (.document hload))

section

variable {span : Span}

theorem raised_name {name : String} (hrequest : ∀ name, Accountable host (.request left name)) :
    Accountable host (.expression left frame (.identifier span name)) := by
  intro p err h
  obtain ⟨henv, ⟨path, hpath, h⟩ | ⟨hscopes, hbuiltin, herr⟩⟩ := fails_name.mp h
  · exact (hrequest path p err h).inside (.name henv hpath)
  · cases herr
    exact (Faults.name henv hscopes hbuiltin).raised

theorem raised_relative {level : Nat} {name : String}
    (hrequest : ∀ name, Accountable host (.request left name)) :
    Accountable host (.expression left frame (.relative span level name)) := by
  intro p err h
  rcases fails_relative.mp h with ⟨hscope, herr⟩ | ⟨scope, hscope, ⟨hbound, h⟩ | ⟨hbound, herr⟩⟩
  · cases herr
    exact (Faults.level hscope).raised
  · exact (hrequest _ p err h).inside (.relative hscope hbound)
  · cases herr
    exact (Faults.relative hscope hbound).raised

theorem raised_array {es : List Expr}
    (hinside : ∀ e ∈ es, Accountable host (.expression left frame e)) :
    Accountable host (.expression left frame (.array span es)) := by
  intro p err h
  obtain ⟨front, inside, later, vs, p', rfl, hfront, he⟩ := fails_array.mp h
  exact (hinside inside (by simp) p' err he).inside (.element hfront)

theorem raised_object {members : List Member}
    (hinside : ∀ m ∈ members, Accountable host (.expression left frame m.expr)) :
    Accountable host (.expression left frame (.object span members)) := by
  intro p err h
  obtain ⟨front, m, later, entries, p', rfl, hfront, hm⟩ := fails_object.mp h
  rcases fails_mergeMember.mp hm with hm | ⟨inside, v, p'', rfl, hfound, hkind, herr⟩
  · exact (hinside m (by simp) p' err hm).inside (.member hfront)
  · cases herr
    exact (Faults.member hfront hfound hkind).raised

/-- Errors that a call finds located keep their places, and those of its function get the place of
the call. -/
theorem raised_of_call {callee : Expr} {args : List Expr}
    (hcallee : Accountable host (.expression left frame callee))
    (hargs : ∀ e ∈ args, Accountable host (.expression left frame e))
    (hcall : ∀ f vs p err, (Activity.call left frame f vs).Fails host p (.runtime err) →
      Refuses f vs err.cause ∧ err.span? = none ∨ Raised host (.call left frame f vs, p) err) :
    Accountable host (.expression left frame (.call span callee args)) := by
  intro p err h
  rcases fails_call.mp h with h | ⟨v, p', hfound, hkind, herr⟩ | ⟨id, f, p', hfound, h⟩
  · exact (hcallee p err h).inside .callee
  · cases herr
    exact (Faults.callee hfound hkind).raised
  rcases h with ⟨front, inside, later, vs, p₁, rfl, hfront, he⟩ | ⟨vs, p'', e', hvs, he', heq⟩
  · exact (hargs inside (by simp) p₁ err he).inside (.argument hfound hfront)
  cases e' with
  | runtime inner =>
    cases heq
    rcases hcall f vs p'' inner he' with ⟨hrefuses, hnone⟩ | hraised
    · have hspan : inner.located span = ⟨inner.cause, some span⟩ := by
        rw [RuntimeError.located, hnone, Option.getD_none]
      rw [hspan]
      exact (Faults.call hfound hvs hrefuses).raised
    · obtain ⟨y, node, hchain, hfaults, hplace⟩ := hraised
      refine Raised.inside (.call hfound hvs) ⟨y, node, hchain, hfaults, ?_⟩
      rw [RuntimeError.located, hplace, Option.getD_some]
  | _ => cases heq

theorem raised_binary {op : BinaryOp} {l r : Expr}
    (hl : Accountable host (.expression left frame l))
    (hr : Accountable host (.expression left frame r)) :
    Accountable host (.expression left frame (.binary span op l r)) := by
  intro p err h
  rcases fails_binary.mp h with h | ⟨a, p', ha, hopen, h | ⟨b, p'', cause, hb, hcause, herr⟩⟩
  · exact (hl p err h).inside .left
  · exact (hr p' err h).inside (.right ha hopen)
  · cases herr
    exact (Faults.binary ha hopen hb hcause).raised

theorem raised_unary {op : UnaryOp} {inside : Expr}
    (hinside : Accountable host (.expression left frame inside)) :
    Accountable host (.expression left frame (.unary span op inside)) := by
  intro p err h
  rcases fails_unary.mp h with h | ⟨a, p', cause, ha, hcause, herr⟩
  · exact (hinside p err h).inside .operand
  · cases herr
    exact (Faults.unary ha hcause).raised

end

/-- Expressions are accountable, if requests and calls at their level are. -/
theorem raised_expression (hrequest : ∀ name, Accountable host (.request left name))
    (hcall : ∀ f vs p err, (Activity.call left frame f vs).Fails host p (.runtime err) →
      Refuses f vs err.cause ∧ err.span? = none ∨ Raised host (.call left frame f vs, p) err)
    (e : Expr) : Accountable host (.expression left frame e) := by
  induction hsize : e.size using Nat.strongRecOn generalizing e with
  | ind size ih =>
    have hchild : ∀ inside ∈ e.children, Accountable host (.expression left frame inside) :=
      fun inside hmem => ih inside.size (hsize ▸ Expr.size_lt_of_child hmem) inside rfl
    cases e with
    | number span text =>
      intro p err h
      obtain ⟨cause, hcause, herr⟩ := fails_settle.mp h
      cases herr
      exact (Faults.number hcause).raised
    | string | boolean | null => exact fun p err h => absurd h not_fails_pure
    | blob span form text =>
      intro p err h
      obtain ⟨cause, hcause, herr⟩ := fails_settle.mp h
      cases herr
      exact (Faults.blob hcause).raised
    | identifier => exact raised_name hrequest
    | relative => exact raised_relative hrequest
    | array => exact raised_array hchild
    | object => exact raised_object fun m hm => hchild m.expr (List.mem_map_of_mem hm)
    | call =>
      exact raised_of_call (hchild _ List.mem_cons_self)
        (fun e he => hchild e (List.mem_cons_of_mem _ he)) hcall
    | lambda => exact fun p err h => absurd h not_fails_compound
    | binary =>
      exact raised_binary (hchild _ List.mem_cons_self)
        (hchild _ (List.mem_cons_of_mem _ List.mem_cons_self))
    | unary => exact raised_unary (hchild _ List.mem_cons_self)

/-- At every level all that fails with a runtime error has it raised by an expression. -/
theorem accountable_at (host : Host) (left : Nat) : AccountableAt host left := by
  induction left with
  | zero =>
    have hbody : ∀ b, Accountable host (.body 0 b) := fun b p err h => by cases fails_throw.mp h
    have hrequest : ∀ name, Accountable host (.request 0 name) := fun _ => raised_request hbody
    exact ⟨hrequest, fun frame e =>
      raised_expression hrequest (fun f vs p err => raised_call hrequest nofun) e⟩
  | succ left ih =>
    have hrequest : ∀ name, Accountable host (.request (left + 1) name) := fun _ =>
      raised_request fun b => raised_body ih
    have hinside : ∀ l, left + 1 = l + 1 → AccountableAt host l := fun l heq =>
      Nat.succ.inj heq ▸ ih
    exact ⟨hrequest, fun frame e =>
      raised_expression hrequest (fun f vs p err => raised_call hrequest hinside) e⟩

/-! ## Errors on their way out -/

/-- A located error goes out of a scene as it went out of the one inside. -/
theorem Inside.fails {x y : Scene} (h : Inside host x y) {cause : RuntimeCause} {span : Span}
    (hy : y.1.Fails host y.2 (.runtime ⟨cause, some span⟩)) :
    x.1.Fails host x.2 (.runtime ⟨cause, some span⟩) := by
  cases h with
  | force hrun => exact fails_request.mpr ⟨_, hrun, hy⟩
  | task htask => exact (fails_body_expression htask).mpr hy
  | @property left b front key e later entries p p' htask hfront =>
    exact (fails_body_members htask).mpr
      ⟨front, _, later, entries, p', rfl, hfront, fails_mergeMember.mpr (.inl hy)⟩
  | @spread left b front e later entries p p' htask hfront =>
    exact (fails_body_members htask).mpr
      ⟨front, _, later, entries, p', rfl, hfront, fails_mergeMember.mpr (.inl hy)⟩
  | @element left frame span front e later vs p p' hfront =>
    exact fails_array.mpr ⟨front, e, later, vs, p', rfl, hfront, hy⟩
  | @member left frame span front m later entries p p' hfront =>
    exact fails_object.mpr
      ⟨front, m, later, entries, p', rfl, hfront, fails_mergeMember.mpr (.inl hy)⟩
  | callee => exact fails_call.mpr (.inl hy)
  | @argument left frame span callee front e later id f vs p p' p'' hcallee hfront =>
    exact fails_call.mpr (.inr (.inr ⟨id, f, p', hcallee,
      .inl ⟨front, e, later, vs, p'', rfl, hfront, hy⟩⟩))
  | @call left frame span callee args id f vs p p' p'' hcallee hargs =>
    exact fails_call.mpr (.inr (.inr ⟨id, f, p', hcallee, .inr ⟨vs, p'', _, hargs, hy, rfl⟩⟩))
  | left => exact fails_binary.mpr (.inl hy)
  | @right left frame span op l r a p p' hleft hopen =>
    exact fails_binary.mpr (.inr ⟨a, p', hleft, hopen, .inl hy⟩)
  | operand => exact fails_unary.mpr (.inl hy)
  | name henv hpath => exact fails_name.mpr ⟨henv, .inl ⟨_, hpath, hy⟩⟩
  | relative hscope hbound => exact fails_relative.mpr (.inr ⟨_, hscope, .inl ⟨hbound, hy⟩⟩)
  | lambda harity => exact (fails_lambda harity).mpr hy
  | @document left frame path name p p' hload =>
    exact fails_lift_bind.mpr (.inr ⟨name, p', hload, hy⟩)

/-- What an expression raises by itself goes out of the scene with the place of the expression. -/
theorem Faults.fails {x : Scene} {node : Expr} {cause : RuntimeCause}
    (h : Faults host x node cause) :
    x.1.Fails host x.2 (.runtime ⟨cause, some node.span⟩) := by
  cases h with
  | number h => exact fails_settle.mpr ⟨cause, h, rfl⟩
  | blob h => exact fails_settle.mpr ⟨cause, h, rfl⟩
  | name henv hscopes hbuiltin => exact fails_name.mpr ⟨henv, .inr ⟨hscopes, hbuiltin, rfl⟩⟩
  | level hscope => exact fails_relative.mpr (.inl ⟨hscope, rfl⟩)
  | relative hscope hbound => exact fails_relative.mpr (.inr ⟨_, hscope, .inr ⟨hbound, rfl⟩⟩)
  | callee hcallee hkind => exact fails_call.mpr (.inr (.inl ⟨_, _, hcallee, hkind, rfl⟩))
  | @call left frame span callee args id f vs cause p p' p'' hcallee hargs hrefuses =>
    exact fails_call.mpr
      (.inr (.inr ⟨id, f, p', hcallee, .inr ⟨vs, p'', _, hargs, hrefuses.fails, rfl⟩⟩))
  | @binary left frame span op l r a b cause p p' p'' hleft hopen hright h =>
    exact fails_binary.mpr (.inr ⟨a, p', hleft, hopen, .inr ⟨b, p'', cause, hright, h, rfl⟩⟩)
  | @unary left frame span op e a cause p p' hoperand h =>
    exact fails_unary.mpr (.inr ⟨a, p', cause, hoperand, h, rfl⟩)
  | @member left frame span front _ later entries v p p' p'' hfront hfound hkind =>
    exact fails_object.mpr ⟨front, _, later, entries, p', rfl, hfront,
      fails_mergeMember.mpr (.inr ⟨node, v, p'', rfl, hfound, hkind, rfl⟩)⟩
  | @spread left b front _ later entries v p p' p'' htask hfront hfound hkind =>
    exact (fails_body_members htask).mpr ⟨front, _, later, entries, p', rfl, hfront,
      fails_mergeMember.mpr (.inr ⟨node, v, p'', rfl, hfound, hkind, rfl⟩)⟩

/-- However far inside a located error comes from, it goes all the way out. -/
theorem fails_of_reached {x y : Scene} (h : ReflTransGen (Inside host) x y) {cause : RuntimeCause}
    {span : Span} (hy : y.1.Fails host y.2 (.runtime ⟨cause, some span⟩)) :
    x.1.Fails host x.2 (.runtime ⟨cause, some span⟩) := by
  induction h using ReflTransGen.head_induction_on with
  | refl => exact hy
  | head hinside _ ih => exact hinside.fails ih

/-- What is raised goes all the way out. -/
theorem Raised.fails {x : Scene} (h : Raised host x err) : x.1.Fails host x.2 (.runtime err) := by
  obtain ⟨y, node, hchain, hfaults, hspan⟩ := h
  obtain ⟨cause, span?⟩ := err
  dsimp only at hspan hfaults
  rw [hspan]
  exact fails_of_reached hchain hfaults.fails

/-- A request fails with a runtime error exactly if it leads down to an expression that raises
it. -/
theorem request_fails_iff (host : Host) (left : Nat) (name : String) (p : Stage) :
    (Activity.request left name).Fails host p (.runtime err) ↔
    Raised host (.request left name, p) err :=
  ⟨(accountable_at host left).request name p err, Raised.fails⟩

end LazyConfig
