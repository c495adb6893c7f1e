-- When what is under way fails. An activity fails as one of those inside of it does, after all
-- before that went well, or it fails by itself.
-- Main statements: when requests and calls fail with a runtime error, and when bodies and
-- expressions fail, one for each kind.
import LazyConfig.Proofs.Document.Members
import LazyConfig.Proofs.Document.Nesting

namespace LazyConfig

open Store Evaluation

/-- The frame in which a binding evaluates its own expressions. -/
abbrev Suspension.frame (b : Suspension) : Frame := ⟨b.path, b.scopes, []⟩

/-- From the stage on, what is under way fails. -/
def Activity.Fails (a : Activity) (host : Host) (p : Stage) (e : EvalError) : Prop :=
  Evaluation.Fails host (a.plain host) p e

variable {host : Host} {left : Nat} {frame : Frame} {p : Stage} {e : EvalError} {err : RuntimeError}

/-! ## Lists -/

/-- Of expressions next to one another one fails, after those before it had values. -/
theorem fails_evalList (es : List Expr) :
    Evaluation.Fails host (evalList host left (innerOf host left) frame es) p e ↔
      ∃ front inside later vs p', es = front ++ inside :: later ∧
        Succeeds host (evalList host left (innerOf host left) frame front) p vs p' ∧
        Evaluation.Fails host (eval host left (innerOf host left) frame inside) p' e := by
  constructor
  · intro h
    induction es generalizing p with
    | nil => cases h
    | cons first es ih =>
      rw [evalList] at h
      rcases fails_bind.mp h with hfirst | ⟨v, p₁, hv, hmore⟩
      · exact ⟨[], first, es, [], p, rfl, succeeds_pure.mpr ⟨rfl, rfl⟩, hfirst⟩
      · rcases fails_bind.mp hmore with hmore | ⟨_, _, _, hpure⟩
        · obtain ⟨front, inside, later, vs, p', rfl, hfront, hinside⟩ := ih hmore
          refine ⟨first :: front, inside, later, v :: vs, p', rfl, ?_, hinside⟩
          rw [evalList]
          exact succeeds_bind.mpr ⟨v, p₁, hv, succeeds_bind.mpr
            ⟨vs, p', hfront, succeeds_pure.mpr ⟨rfl, rfl⟩⟩⟩
        · exact absurd hpure not_fails_pure
  · rintro ⟨front, inside, later, vs, p', rfl, hfront, hinside⟩
    induction front generalizing p vs with
    | nil =>
      obtain ⟨_, rfl⟩ := succeeds_pure.mp hfront
      rw [List.nil_append, evalList]
      exact fails_bind.mpr (.inl hinside)
    | cons first front ih =>
      rw [evalList] at hfront
      obtain ⟨v, p₁, hv, hmore⟩ := succeeds_bind.mp hfront
      obtain ⟨vs', p₂, hvs, hpure⟩ := succeeds_bind.mp hmore
      obtain ⟨rfl, rfl⟩ := succeeds_pure.mp hpure
      rw [List.cons_append, evalList]
      exact fails_bind.mpr (.inr ⟨v, p₁, hv, fails_bind.mpr (.inl (ih vs' hvs))⟩)

/-- Of members one fails, after those before it were merged. -/
theorem fails_mergeMembers {ask : Member → Evaluation Value} (members : List Member)
    (entries : Object Value) :
    Evaluation.Fails host (mergeMembers ask entries members) p e ↔
      ∃ front m later joined p', members = front ++ m :: later ∧
        Succeeds host (mergeMembers ask entries front) p joined p' ∧
        Evaluation.Fails host (mergeMember ask joined m) p' e := by
  constructor
  · intro h
    induction members generalizing p entries with
    | nil => cases h
    | cons first members ih =>
      rcases fails_bind.mp h with hfirst | ⟨joined, p₁, hjoined, hmore⟩
      · exact ⟨[], first, members, entries, p, rfl, succeeds_pure.mpr ⟨rfl, rfl⟩, hfirst⟩
      · obtain ⟨front, m, later, merged, p', rfl, hfront, hm⟩ := ih joined hmore
        exact ⟨first :: front, m, later, merged, p', rfl,
          succeeds_bind.mpr ⟨joined, p₁, hjoined, hfront⟩, hm⟩
  · rintro ⟨front, m, later, joined, p', rfl, hfront, hm⟩
    induction front generalizing p entries with
    | nil =>
      obtain ⟨rfl, rfl⟩ := succeeds_pure.mp hfront
      exact fails_bind.mpr (.inl hm)
    | cons first front ih =>
      obtain ⟨merged, p₁, hmerged, hmore⟩ := succeeds_bind.mp hfront
      exact fails_bind.mpr (.inr ⟨merged, p₁, hmerged, ih merged hmore⟩)

/-! ## Errors of the store -/

/-- The store itself has no runtime errors. -/
theorem reply_not_runtime {s : Store Suspension} {name : String} :
    s.reply name ≠ .now (.error (.runtime err)) := by
  unfold reply
  cases s.find? name with
  | none => simp
  | some b =>
    cases hstate : b.state with
    | unevaluated => simp only [hstate]; split <;> simp
    | inProgress => simp [hstate]
    | evaluated v => simp [hstate]

theorem finish_runtime {s : Store Suspension} {name : String} {r : Except EvalError Value} :
    (s.finish name r).1 = .error (.runtime err) ↔ r = .error (.runtime err) := by
  cases r with
  | error e' => exact Iff.rfl
  | ok v => by_cases hcost : s.bytesLeft < v.cost <;> simp [finish, hcost]

theorem loadDocument_not_runtime (s : Store Suspension) (name : String) (root : Expr) :
    (s.exec (behaviour host) (Attempt.loadDocument name root).run).1 ≠ .error (.runtime err) := by
  rw [exec_loadDocument]
  split <;> simp

theorem loadFile_not_runtime (s : Store Suspension) (path : String) :
    (s.exec (behaviour host) (Attempt.loadFile host path).run).1 ≠ .error (.runtime err) := by
  rw [loadFile_eq]
  cases host.storage.readBytes path with
  | error e => exact nofun
  | ok bytes =>
    have hcontent : (s.exec (behaviour host)
        (Attempt.loadContent host (host.contentName bytes) path bytes).run).1 ≠
          .error (.runtime err) := by
      rw [exec_loadContent]
      split
      · exact nofun
      · split
        · exact loadDocument_not_runtime s _ _
        · exact nofun
    dsimp only
    rw [exec_run_bind]
    generalize s.exec (behaviour host)
      (Attempt.loadContent host (host.contentName bytes) path bytes).run = out at hcontent ⊢
    obtain ⟨r, s'⟩ := out
    cases r with
    | error e => simpa using hcontent
    | ok _ => exact nofun

/-! ## Requests and bodies -/

theorem fails_plain_body {s : Store Suspension} {b : Suspension} :
    (s.exec (behaviour host) (behaviour host b left)).1 = .error e ↔
      (Activity.body left b).Fails host ⟨s, 0⟩ e := by
  cases left with
  | zero =>
    have hthrow : (Activity.body 0 b).Fails host ⟨s, 0⟩ e ↔ e = host.overflow := fails_throw
    rw [hthrow, behaviour_zero, exec_done, Except.error.injEq, eq_comm]
  | succ left => exact fails_body

/-- A request fails with a runtime error if the body does that it runs. -/
theorem fails_request {s : Store Suspension} {name : String} {made : Nat} :
    (Activity.request left name).Fails host ⟨s, made⟩ (.runtime err) ↔
      ∃ b, s.reply name = .run b ∧
        (Activity.body left b).Fails host ⟨s.start name, 0⟩ (.runtime err) := by
  have hvalue : (Activity.request left name).Fails host ⟨s, made⟩ (.runtime err) ↔
      (s.value (behaviour host) left name).1 = .error (.runtime err) := fails_value
  rw [hvalue]
  cases hr : s.reply name with
  | now r =>
    rw [value_of_now _ hr]
    refine iff_of_false (fun h => ?_) (by simp)
    exact reply_not_runtime (hr.trans (congrArg Reply.now h))
  | run b =>
    rw [value_of_run _ hr]
    dsimp only
    rw [finish_runtime, fails_plain_body]
    simp

theorem fails_body_expression {b : Suspension} {inside : Expr}
    (htask : b.task = .expression inside) :
    (Activity.body (left + 1) b).Fails host p e ↔
      (Activity.expression left b.frame inside).Fails host p e := by
  show Evaluation.Fails host (evalTask host left (innerOf host left) b) p e ↔ _
  unfold evalTask
  rw [htask]
  exact Iff.rfl

theorem fails_body_members {b : Suspension} {members : List Member}
    (htask : b.task = .members members) :
    (Activity.body (left + 1) b).Fails host p e ↔
      ∃ front m later entries p', members = front ++ m :: later ∧
        Succeeds host
          (forceMembers host left (innerOf host left) b.frame b.path [] front) p entries p' ∧
        Evaluation.Fails host (mergeMember (askBelow host left b.frame b.path) entries m) p' e := by
  show Evaluation.Fails host (evalTask host left (innerOf host left) b) p e ↔ _
  unfold evalTask
  rw [htask]
  simp only [forceMembers_eq]
  rw [fails_bind_left fun _ _ => not_fails_compound]
  exact fails_mergeMembers members []

/-! ## Calls -/

/-- The function does not take these arguments at all. -/
inductive Refuses : Function → List Value → RuntimeCause → Prop
  | lambda {params body scopes env args} (harity : args.length ≠ params.length) :
      Refuses (.lambda params body scopes env) args (.arity "<lambda>" params.length args.length)
  | builtin {b args} (harity : args.length ≠ 1) :
      Refuses (.builtin b) args (.arity b.name 1 args.length)
  | path {b v} (hpath : v.string? = none) :
      Refuses (.builtin b) [v] (.typeMismatch (.path b.name v.typeName))
  | host {name args} : Refuses (.host name) args (.notCallable "function")

theorem not_fails_readText {path : String} :
    ¬ Evaluation.Fails host (liftM (Attempt.readText host path)) p (.runtime err) := by
  rw [fails_lift, Attempt.readText]
  cases host.storage.readText path <;> exact nofun

theorem not_fails_readBytes {path : String} :
    ¬ Evaluation.Fails host (liftM (Attempt.readBytes host path)) p (.runtime err) := by
  rw [fails_lift, Attempt.readBytes]
  cases host.storage.readBytes path <;> exact nofun

/-- A builtin refuses its arguments, or includes a document whose value fails. -/
theorem fails_applyBuiltin {b : Builtin} {args : List Value}
    (h : Evaluation.Fails host (liftM (applyBuiltin host left b args)) p (.runtime err)) :
    Refuses (.builtin b) args err.cause ∧ err.span? = none ∨
      ∃ path name p', b = .document ∧ args = [.string path] ∧
        Succeeds host (liftM (Attempt.loadFile host path)) p name p' ∧
        (Activity.request left name).Fails host p' (.runtime err) := by
  match args with
  | [] =>
    cases fails_throw.mp h
    exact .inl ⟨.builtin (by simp), rfl⟩
  | v :: w :: more =>
    have harity : (v :: w :: more).length ≠ 1 := by simp
    have hthrow : applyBuiltin host left b (v :: w :: more) =
        throw (.runtime ⟨.arity b.name 1 (v :: w :: more).length, none⟩) := by
      cases v <;> rfl
    rw [hthrow] at h
    cases fails_throw.mp h
    exact .inl ⟨.builtin harity, rfl⟩
  | [.string path] =>
    cases b with
    | document =>
      rcases fails_lift_bind.mp h with h | ⟨name, p', hload, h⟩
      · exact absurd (fails_lift.mp h) (loadFile_not_runtime p.store path)
      · exact .inr ⟨path, name, p', rfl, rfl, hload, h⟩
    | text =>
      rcases fails_lift_bind.mp h with h | ⟨_, _, _, h⟩
      · exact absurd h not_fails_readText
      · exact absurd h not_fails_pure
    | blob =>
      rcases fails_lift_bind.mp h with h | ⟨_, _, _, h⟩
      · exact absurd h not_fails_readBytes
      · exact absurd h not_fails_pure
  | [.undefined] | [.null] | [.boolean _] | [.number _] | [.bigint _] | [.blob _] | [.array _ _]
  | [.object _ _] | [.function _ _] =>
    cases fails_throw.mp h
    exact .inl ⟨.path rfl, rfl⟩

/-- A function that refuses its arguments fails without a place. -/
theorem Refuses.fails {f : Function} {vs : List Value} {cause : RuntimeCause}
    (h : Refuses f vs cause) :
    (Activity.call left frame f vs).Fails host p (.runtime ⟨cause, none⟩) := by
  show Evaluation.Fails host (applyFunction host left (innerOf host left) frame f vs) p _
  unfold applyFunction
  cases h with
  | lambda harity =>
    dsimp only
    rw [if_pos harity]
    exact fails_throw.mpr rfl
  | @builtin b _ harity =>
    match vs with
    | [] => exact fails_throw.mpr rfl
    | [v] => exact absurd rfl harity
    | v :: w :: more => cases v <;> exact fails_throw.mpr rfl
  | @path b v hpath =>
    cases v with
    | string text => cases hpath
    | _ => exact fails_throw.mpr rfl
  | host => exact fails_throw.mpr rfl

/-- A lambda fails as its body does, one level further in. -/
theorem fails_lambda {params : List String} {body : Expr} {scopes : List String}
    {env : List (String × Value)} {args : List Value} (harity : args.length = params.length) :
    (Activity.call (left + 1) frame (.lambda params body scopes env) args).Fails host p e ↔
      (Activity.expression left ⟨frame.owner, scopes, params.zip args ++ env⟩ body).Fails
        host p e := by
  show Evaluation.Fails host (applyFunction host (left + 1) (innerOf host (left + 1)) frame
    (.lambda params body scopes env) args) p e ↔ _
  unfold applyFunction
  dsimp only
  rw [if_neg (not_not.mpr harity), innerOf]
  dsimp only
  rw [evaluator_eq]
  exact Iff.rfl

/-- A function refuses its arguments, or what it leads to fails. -/
theorem fails_function {f : Function} {args : List Value}
    (h : (Activity.call left frame f args).Fails host p (.runtime err)) :
    (Refuses f args err.cause ∧ err.span? = none) ∨
      (∃ inside params body scopes env, left = inside + 1 ∧ f = .lambda params body scopes env ∧
        args.length = params.length ∧
        (Activity.expression inside ⟨frame.owner, scopes, params.zip args ++ env⟩ body).Fails host p
          (.runtime err)) ∨
      ∃ path name p', f = .builtin .document ∧ args = [.string path] ∧
        Succeeds host (liftM (Attempt.loadFile host path)) p name p' ∧
        (Activity.request left name).Fails host p' (.runtime err) := by
  cases f with
  | host name =>
    cases fails_throw.mp h
    exact .inl ⟨.host, rfl⟩
  | builtin b =>
    rcases fails_applyBuiltin h with hrefuses | ⟨path, name, p', rfl, rfl, hload, hvalue⟩
    · exact .inl hrefuses
    · exact .inr (.inr ⟨path, name, p', rfl, rfl, hload, hvalue⟩)
  | lambda params body scopes env =>
    have happly : Evaluation.Fails host
      (applyFunction host left (innerOf host left) frame (.lambda params body scopes env) args) p
        (.runtime err) := h
    unfold applyFunction at happly
    dsimp only at happly
    by_cases harity : args.length = params.length
    · rw [if_neg (not_not.mpr harity)] at happly
      cases left with
      | zero => cases fails_throw.mp happly
      | succ inside =>
        exact .inr
          (.inl ⟨inside, params, body, scopes, env, rfl, rfl, harity, (fails_lambda harity).mp h⟩)
    · rw [if_pos harity] at happly
      cases fails_throw.mp happly
      exact .inl ⟨.lambda harity, rfl⟩

/-! ## Expressions -/

section

variable {span : Span}

/-- A name stands for a binding whose value fails, or for nothing. -/
theorem fails_name {name : String} :
    (Activity.expression left frame (.identifier span name)).Fails host p e ↔
      frame.env.lookup name = none ∧
        ((∃ path, p.store.scoped? name frame.scopes = some path ∧
            (Activity.request left path).Fails host p e) ∨
          (p.store.scoped? name frame.scopes = none ∧ Builtin.ofName? name = none ∧
            e = .runtime ⟨.unknownName name, some span⟩)) := by
  show Evaluation.Fails host (lookup left frame span name) p e ↔ _
  unfold lookup
  cases henv : frame.env.lookup name with
  | some v => simp [not_fails_pure]
  | none =>
    rw [fails_bind_right (succeeds_findScoped.mpr ⟨rfl, rfl⟩)]
    cases hscoped : p.store.scoped? name frame.scopes with
    | some path => simp [Activity.Fails, Activity.plain]
    | none =>
      cases hbuiltin : Builtin.ofName? name with
      | some b => exact iff_of_false not_fails_compound (by simp)
      | none => simp [fail, fails_throw]

/-- A name of one scope stands for a binding there whose value fails, or for nothing. -/
theorem fails_relative {level : Nat} {name : String} :
    (Activity.expression left frame (.relative span level name)).Fails host p e ↔
      (frame.scopes[level]? = none ∧ e = .runtime ⟨.scopeOutOfRange level name, some span⟩) ∨
        ∃ scope, frame.scopes[level]? = some scope ∧
          ((p.store.contains (childPath scope name) = true ∧
              (Activity.request left (childPath scope name)).Fails host p e) ∨
            (p.store.contains (childPath scope name) = false ∧
              e = .runtime ⟨.unknownName name, some span⟩)) := by
  show Evaluation.Fails host (lookupRelative left frame span level name) p e ↔ _
  unfold lookupRelative
  cases hscope : frame.scopes[level]? with
  | none => simp [fail, fails_throw]
  | some scope =>
    dsimp only
    rw [fails_bind_right (succeeds_contains.mpr ⟨rfl, rfl⟩)]
    cases hbound : p.store.contains (childPath scope name) with
    | true => simp [hbound, Activity.Fails, Activity.plain]
    | false => simp [hbound, fail, fails_throw]

theorem fails_array {es : List Expr} :
    (Activity.expression left frame (.array span es)).Fails host p e ↔
      ∃ front inside later vs p', es = front ++ inside :: later ∧
        Succeeds host (evalList host left (innerOf host left) frame front) p vs p' ∧
        (Activity.expression left frame inside).Fails host p' e := by
  show Evaluation.Fails host (eval host left (innerOf host left) frame _) p e ↔ _
  rw [eval, fails_bind_left fun _ _ => not_fails_compound]
  exact fails_evalList es

theorem fails_object {members : List Member} :
    (Activity.expression left frame (.object span members)).Fails host p e ↔
      ∃ front m later entries p', members = front ++ m :: later ∧
        Succeeds host (evalMembers host left (innerOf host left) frame [] front) p entries p' ∧
        Evaluation.Fails host (mergeMember (askInPlace host left frame) entries m) p' e := by
  show Evaluation.Fails host (eval host left (innerOf host left) frame _) p e ↔ _
  rw [eval, fails_bind_left fun _ _ => not_fails_compound]
  simp only [evalMembers_eq]
  exact fails_mergeMembers members []

/-- A call fails as its parts do, or as the function then does. That error gets the place of the
call, if it has none. -/
theorem fails_call {callee : Expr} {args : List Expr} :
    (Activity.expression left frame (.call span callee args)).Fails host p e ↔
      (Activity.expression left frame callee).Fails host p e ∨
      (∃ v p', Succeeds host (eval host left (innerOf host left) frame callee) p v p' ∧
        (∀ id f, v ≠ .function id f) ∧ e = .runtime ⟨.notCallable v.typeName, some span⟩) ∨
      ∃ id f p', Succeeds host (eval host left (innerOf host left) frame callee) p
        (.function id f) p' ∧
        ((∃ front inside later vs p'', args = front ++ inside :: later ∧
            Succeeds host (evalList host left (innerOf host left) frame front) p' vs p'' ∧
            (Activity.expression left frame inside).Fails host p'' e) ∨
          ∃ vs p'' e', Succeeds host (evalList host left (innerOf host left) frame args) p' vs p'' ∧
            (Activity.call left frame f vs).Fails host p'' e' ∧ e = e'.located span) := by
  show Evaluation.Fails host (eval host left (innerOf host left) frame _) p e ↔ _
  rw [eval, fails_bind]
  refine or_congr Iff.rfl ⟨?_, ?_⟩
  · rintro ⟨v, p', hv, h⟩
    cases v with
    | function id f =>
      refine .inr ⟨id, f, p', hv, ?_⟩
      rcases fails_bind.mp h with h | ⟨vs, p'', hvs, h⟩
      · exact .inl ((fails_evalList args).mp h)
      · obtain ⟨e', he', heq⟩ := fails_locating.mp h
        exact .inr ⟨vs, p'', e', hvs, he', heq⟩
    | _ => exact .inl ⟨_, p', hv, by simp, fails_throw.mp h⟩
  · rintro (⟨v, p', hv, hkind, rfl⟩ | ⟨id, f, p', hv, h⟩)
    · refine ⟨v, p', hv, ?_⟩
      cases v with
      | function id f => exact absurd rfl (hkind id f)
      | _ => exact fails_throw.mpr rfl
    · refine ⟨_, p', hv, fails_bind.mpr ?_⟩
      rcases h with h | ⟨vs, p'', e', hvs, he', rfl⟩
      · exact .inl ((fails_evalList args).mpr h)
      · exact .inr ⟨vs, p'', hvs, fails_locating.mpr ⟨e', he', rfl⟩⟩

theorem fails_binary {op : BinaryOp} {l r : Expr} :
    (Activity.expression left frame (.binary span op l r)).Fails host p e ↔
      (Activity.expression left frame l).Fails host p e ∨
      ∃ a p', Succeeds host (eval host left (innerOf host left) frame l) p a p' ∧
        op.decidedBy a = false ∧
        ((Activity.expression left frame r).Fails host p' e ∨
          ∃ b p'' cause, Succeeds host (eval host left (innerOf host left) frame r) p' b p'' ∧
            Value.binary ⟨frame.owner, p''.made⟩ op a b = .error cause ∧
            e = .runtime ⟨cause, some span⟩) := by
  show Evaluation.Fails host (eval host left (innerOf host left) frame _) p e ↔ _
  rw [eval, fails_bind]
  refine or_congr Iff.rfl (exists_congr fun a => exists_congr fun p' => and_congr_right fun _ => ?_)
  cases hdecided : op.decidedBy a with
  | true => simp [not_fails_pure]
  | false =>
    simp only [Bool.false_eq_true, if_false, true_and]
    rw [fails_bind]
    refine or_congr Iff.rfl (exists_congr fun b => exists_congr fun p'' => ?_)
    rw [fails_bind_right (succeeds_fresh.mpr ⟨rfl, rfl⟩), fails_settle]
    simp

theorem fails_unary {op : UnaryOp} {inside : Expr} :
    (Activity.expression left frame (.unary span op inside)).Fails host p e ↔
      (Activity.expression left frame inside).Fails host p e ∨
      ∃ a p' cause, Succeeds host (eval host left (innerOf host left) frame inside) p a p' ∧
        Value.unary op a = .error cause ∧ e = .runtime ⟨cause, some span⟩ := by
  show Evaluation.Fails host (eval host left (innerOf host left) frame _) p e ↔ _
  rw [eval, fails_bind]
  refine or_congr Iff.rfl (exists_congr fun a => exists_congr fun p' => ?_)
  rw [fails_settle]
  simp

end

end LazyConfig
