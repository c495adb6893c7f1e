-- Evaluation of expressions that are the same up to the names of parameters. Their identifiers
-- stand for the arguments at the same places, or for the same names outside, so they evaluate to
-- values that are the same up to the names of parameters again, fail alike, and leave stores that
-- are alike.
-- Main statement: so do all that bindings and expressions do, at every level.
import LazyConfig.Proofs.Document.Loading
import LazyConfig.Proofs.Document.Relations
import LazyConfig.Proofs.Value.Renaming

namespace LazyConfig

open Evaluation Store

/-! ## Bindings of documents -/

inductive Task.Alpha : Task → Task → Prop
  | expression {e e' : Expr} (h : e.Alpha [] e') : Task.Alpha (.expression e) (.expression e')
  | members {ms ms' : List Member} (h : Member.AlphaAll [] ms ms') :
      Task.Alpha (.members ms) (.members ms')

/-- Bindings with the same path and scopes, whose tasks are the same up to the names of
parameters. -/
structure Suspension.Alpha (b b' : Suspension) : Prop where
  path_eq : b.path = b'.path
  scopes_eq : b.scopes = b'.scopes
  task : b.task.Alpha b'.task

theorem Suspension.alpha_refl (b : Suspension) : b.Alpha b := by
  refine ⟨rfl, rfl, ?_⟩
  cases b.task with
  | expression e => exact .expression (Expr.alpha_refl Pairing.diagonal_nil e)
  | members ms => exact .members (Member.alphaAll_self ms fun a _ => Pairing.diagonal_nil a)

/-- What is the same up to the names of parameters is alike. -/
def alphaLikeness : Likeness Suspension := ⟨Suspension.Alpha, Value.Alpha, Value.Alpha.cost_eq⟩

theorem Member.AlphaAll.isOverridden_eq {Γ : Pairing} {ms ms' : List Member}
    (h : Member.AlphaAll Γ ms ms') (key : String) : isOverridden key ms = isOverridden key ms' := by
  unfold isOverridden
  induction ms generalizing ms' with
  | nil => cases h; rfl
  | cons m ms ih =>
    cases h with
    | property _ hms => rw [List.any_cons, List.any_cons, ih hms]; rfl
    | spread _ hms => rw [List.any_cons, List.any_cons, ih hms]; rfl

mutual

theorem bindingsAt_alpha (scopes : List String) (path : String) : {e e' : Expr} → e.Alpha [] e' →
    List.Forall₂ Suspension.Alpha (bindingsAt scopes path e) (bindingsAt scopes path e')
  | _, _, .object h =>
    .cons ⟨rfl, rfl, .members h⟩ (memberBindings_alpha (path :: scopes) path h)
  | _, _, h@.number | _, _, h@.string | _, _, h@.boolean | _, _, h@.null | _, _, h@.blob
  | _, _, h@(.identifier _) | _, _, h@.relative | _, _, h@(.array _) | _, _, h@(.call _ _)
  | _, _, h@(.lambda _ _) | _, _, h@(.binary _ _) | _, _, h@(.unary _) =>
    .cons ⟨rfl, rfl, .expression h⟩ .nil

theorem memberBindings_alpha (scopes : List String) (path : String) : {ms ms' : List Member} →
    Member.AlphaAll [] ms ms' →
      List.Forall₂ Suspension.Alpha (memberBindings scopes path ms) (memberBindings scopes path ms')
  | _, _, .nil => .nil
  | _, _, .property h hms => by
    rw [memberBindings, memberBindings, hms.isOverridden_eq]
    split
    · exact memberBindings_alpha scopes path hms
    · exact List.rel_append (bindingsAt_alpha scopes _ h) (memberBindings_alpha scopes path hms)
  | _, _, .spread _ hms => by
    rw [memberBindings, memberBindings]
    exact memberBindings_alpha scopes path hms

end

/-! ## Attempts -/

variable {host : Host} {left : Nat} {α β α' β' : Type} {R : α → β → Prop} {R' : α' → β' → Prop}

/-- On stores that are alike the two attempts end alike. -/
def Attempt.Parallel (host : Host) (R : α → β → Prop) (x : Attempt α) (y : Attempt β) : Prop :=
  alphaLikeness.Parallel (behaviour host) R x y

namespace Attempt

theorem Parallel.bind {x : Attempt α} {y : Attempt β} {f : α → Attempt α'} {g : β → Attempt β'}
    (hx : Parallel host R x y) (hf : ∀ a b, R a b → Parallel host R' (f a) (g b)) :
    Parallel host R' (x >>= f) (y >>= g) := Likeness.Parallel.bind hx hf

theorem parallel_pure {a : α} {b : β} (h : R a b) : Parallel host R (pure a) (pure b) := .pure h

theorem parallel_throw (e : EvalError) :
    Parallel host R (throw e : Attempt α) (throw e : Attempt β) := .throw e

theorem parallel_contains (path : String) :
    Parallel host Eq (Attempt.contains path) (Attempt.contains path) := by
  intro s s' hs
  rw [exec_attempt_contains, exec_attempt_contains, hs.contains_eq]
  exact ⟨.ok rfl, hs⟩

theorem paths_eq_of_alpha {bindings bindings' : List Suspension}
    (h : List.Forall₂ Suspension.Alpha bindings bindings') :
    bindings.map (·.path) = bindings'.map (·.path) := by
  induction h with
  | nil => rfl
  | cons hb _ ih => rw [List.map_cons, List.map_cons, hb.path_eq, ih]

theorem stores_addAll {s s' : Store Suspension} (hs : alphaLikeness.Stores s s')
    {bindings bindings' : List Suspension} (h : List.Forall₂ Suspension.Alpha bindings bindings') :
    alphaLikeness.Stores (s.addAll bindings) (s'.addAll bindings') := by
  refine { hs with bindings := List.rel_append hs.bindings ?_, names_eq := ?_ }
  · refine List.forall₂_map_left_iff.mpr (List.forall₂_map_right_iff.mpr (h.imp ?_))
    exact fun b b' hb => ⟨hb.path_eq, .unevaluated, hb⟩
  · show s.names ++ _ = s'.names ++ _
    rw [hs.names_eq, paths_eq_of_alpha h]

/-- Whether a document can be loaded depends on its paths alone. -/
theorem parallel_loadDocument (name : String) {root root' : Expr} (h : root.Alpha [] root') :
    Parallel host Eq (loadDocument name root) (loadDocument name root') := by
  intro s s' hs
  have hbindings : List.Forall₂ Suspension.Alpha (documentBindings name root)
      (documentBindings name root') := bindingsAt_alpha [] name h
  rw [exec_loadDocument, exec_loadDocument, hs.contains_eq, paths_eq_of_alpha hbindings]
  cases firstTaken s'.contains [] ((documentBindings name root').map (·.path)) with
  | none => exact ⟨.ok rfl, stores_addAll hs hbindings⟩
  | some path => exact ⟨.error _, hs⟩

theorem parallel_loadFile (path : String) :
    Parallel host Eq (loadFile host path) (loadFile host path) := by
  rw [loadFile_eq]
  cases host.storage.readBytes path with
  | error e => exact parallel_throw _
  | ok bytes =>
    refine Parallel.bind (R := Eq) ?_ fun _ _ _ => parallel_pure rfl
    intro s s' hs
    rw [exec_loadContent, exec_loadContent, hs.contains_eq]
    split
    · exact ⟨.ok rfl, hs⟩
    · cases parse host.maxParseDepth bytes with
      | ok root => exact parallel_loadDocument _ (Expr.alpha_refl Pairing.diagonal_nil root) s s' hs
      | error e => exact ⟨.error _, hs⟩

theorem parallel_readText (path : String) :
    Parallel host Eq (readText host path) (readText host path) := by
  unfold readText
  cases host.storage.readText path with
  | ok text => exact parallel_pure rfl
  | error e => exact parallel_throw _

theorem parallel_readBytes (path : String) :
    Parallel host Eq (readBytes host path) (readBytes host path) := by
  unfold readBytes
  cases host.storage.readBytes path with
  | ok bytes => exact parallel_pure rfl
  | error e => exact parallel_throw _

theorem parallel_findScoped (name : String) (scopes : List String) :
    Parallel host Eq (findScoped name scopes) (findScoped name scopes) := by
  induction scopes with
  | nil => exact parallel_pure rfl
  | cons scope outer ih =>
    unfold findScoped
    apply (parallel_contains _).bind
    rintro found _ rfl
    split
    · exact parallel_pure rfl
    · exact ih

end Attempt

/-! ## Inside a forcing -/

/-- On stores that are alike the two evaluations end alike, and have made as many compound
values. -/
def Evaluation.Parallel (host : Host) (R : α → β → Prop) (x : Evaluation α) (y : Evaluation β) :
    Prop :=
  ∀ count, Attempt.Parallel host (fun p q => R p.1 q.1 ∧ p.2 = q.2) (x count) (y count)

namespace Evaluation

theorem parallel_pure {a : α} {b : β} (h : R a b) : Parallel host R (pure a) (pure b) :=
  fun _ => Attempt.parallel_pure ⟨h, rfl⟩

theorem parallel_throw (e : EvalError) :
    Parallel host R (throw e : Evaluation α) (throw e : Evaluation β) :=
  fun _ => Attempt.parallel_throw e

theorem Parallel.bind {x : Evaluation α} {y : Evaluation β} {f : α → Evaluation α'}
    {g : β → Evaluation β'} (hx : Parallel host R x y)
    (hf : ∀ a b, R a b → Parallel host R' (f a) (g b)) : Parallel host R' (x >>= f) (y >>= g) := by
  intro count
  refine Attempt.Parallel.bind (hx count) ?_
  rintro ⟨a, n⟩ ⟨b, _⟩ ⟨hab, rfl⟩
  exact hf a b hab n

theorem parallel_lift {x : Attempt α} {y : Attempt β} (h : Attempt.Parallel host R x y) :
    Parallel host R (liftM x : Evaluation α) (liftM y : Evaluation β) :=
  fun _ => h.bind fun _ _ hab => Attempt.parallel_pure ⟨hab, rfl⟩

theorem Parallel.locating {x : Evaluation α} {y : Evaluation β} (h : Parallel host R x y)
    (span : Span) : Parallel host R (locating span x) (locating span y) :=
  fun count => Likeness.Parallel.adapt (h count) _

theorem parallel_settle (span : Span) {r : Except RuntimeCause α} {r' : Except RuntimeCause β}
    (h : EndAlike R r r') : Parallel host R (settle span r) (settle span r') := by
  cases h with
  | ok hab => exact parallel_pure hab
  | error cause => exact parallel_throw _

theorem parallel_mergeSpread (span : Span) {entries entries' : Object Value}
    (h : Value.AlphaEntries entries entries') {found found' : Value} (hfound : found.Alpha found') :
    Parallel host Value.AlphaEntries (mergeSpread span entries found)
      (mergeSpread span entries' found') := by
  unfold mergeSpread
  cases hfound with
  | object hmore => exact parallel_pure (h.extend hmore)
  | plain hplain => cases found <;> first | exact parallel_throw _ | cases hplain
  | array => exact parallel_throw _
  | function => exact parallel_throw _

end Evaluation

/-- Frames for the same binding in the same scopes, with arguments for the paired parameters that
are alike. -/
structure Frame.Alpha (Γ : Pairing) (frame frame' : Frame) : Prop where
  owner_eq : frame.owner = frame'.owner
  scopes_eq : frame.scopes = frame'.scopes
  env : Value.AlphaEnv Γ frame.env frame'.env

/-- At a level, requests for bindings are parallel, and so is evaluation one level further in. -/
structure ParallelAt (host : Host) (left : Nat) : Prop where
  value (path : String) :
    Attempt.Parallel host Value.Alpha (Attempt.value left path) (Attempt.value left path)
  inner {Γ : Pairing} {frame frame' : Frame} {e e' : Expr} :
    Frame.Alpha Γ frame frame' → e.Alpha Γ e' →
      Evaluation.Parallel host Value.Alpha ((innerOf host left).enter frame e)
        ((innerOf host left).enter frame' e')

open Evaluation (parallel_pure parallel_throw parallel_lift parallel_settle parallel_mergeSpread)

theorem Frame.Alpha.fresh {Γ : Pairing} {frame frame' : Frame} (h : Frame.Alpha Γ frame frame') :
    Evaluation.Parallel host Eq (fresh frame) (fresh frame') := by
  intro count
  refine Attempt.parallel_pure ⟨?_, rfl⟩
  rw [h.owner_eq]

theorem Value.Alpha.decidedBy_eq {a a' : Value} (h : a.Alpha a') (op : BinaryOp) :
    op.decidedBy a = op.decidedBy a' := by
  cases op <;> simp only [BinaryOp.decidedBy, h.isTruthy_eq]

namespace ParallelAt

variable {Γ : Pairing} {frame frame' : Frame}

/-! ## Names and calls -/

section

variable (h : ParallelAt host left)

include h

theorem lookup (hf : Frame.Alpha Γ frame frame') (span : Span) {a b : String} (hab : Γ.Binds a b) :
    Evaluation.Parallel host Value.Alpha (lookup left frame span a)
      (lookup left frame' span b) := by
  unfold LazyConfig.lookup
  rcases hf.env.lookup hab with ⟨v, v', ha, hb, hv⟩ | ⟨ha, hb, rfl⟩
  · rw [ha, hb]
    exact parallel_pure hv
  · rw [ha, hb, hf.scopes_eq]
    apply (parallel_lift (Attempt.parallel_findScoped a frame'.scopes)).bind
    rintro found _ rfl
    split
    · exact parallel_lift (h.value _)
    split
    · apply hf.fresh.bind
      rintro id _ rfl
      exact parallel_pure (.function .builtin)
    · exact parallel_throw _

theorem lookupRelative (hf : Frame.Alpha Γ frame frame') (span : Span) (level : Nat)
    (name : String) :
    Evaluation.Parallel host Value.Alpha (lookupRelative left frame span level name)
      (lookupRelative left frame' span level name) := by
  unfold LazyConfig.lookupRelative
  rw [hf.scopes_eq]
  split
  · exact parallel_throw _
  apply (parallel_lift (Attempt.parallel_contains _)).bind
  rintro found _ rfl
  split
  · exact parallel_lift (h.value _)
  · exact parallel_throw _

/-- A builtin takes a path, which has no lambdas in it. -/
theorem applyBuiltin (b : Builtin) {args args' : List Value} (hargs : Value.AlphaItems args args') :
    Attempt.Parallel host Value.Alpha (applyBuiltin host left b args)
      (applyBuiltin host left b args') := by
  match args, args', hargs with
  | [], _, .nil => exact Attempt.parallel_throw _
  | _ :: _ :: _, _, .cons _ (.cons _ hmore) =>
    simp only [LazyConfig.applyBuiltin, List.length_cons, hmore.length_eq]
    exact Attempt.parallel_throw _
  | [v], [v'], .cons hv .nil =>
    cases hv with
    | plain =>
      cases v with
      | string path =>
        cases b with
        | document =>
          apply (Attempt.parallel_loadFile path).bind
          rintro name _ rfl
          exact h.value name
        | text =>
          apply (Attempt.parallel_readText path).bind
          rintro text _ rfl
          exact Attempt.parallel_pure (.plain rfl)
        | blob =>
          apply (Attempt.parallel_readBytes path).bind
          rintro bytes _ rfl
          exact Attempt.parallel_pure (.plain rfl)
      | _ => exact Attempt.parallel_throw _
    | _ => exact Attempt.parallel_throw _

theorem applyFunction (hf : Frame.Alpha Γ frame frame') {f f' : Function} (hfun : f.Alpha f')
    {args args' : List Value} (hargs : Value.AlphaItems args args') :
    Evaluation.Parallel host Value.Alpha (applyFunction host left (innerOf host left) frame f args)
      (applyFunction host left (innerOf host left) frame' f' args') := by
  unfold LazyConfig.applyFunction
  cases hfun with
  | host => exact parallel_throw _
  | builtin => exact parallel_lift (h.applyBuiltin _ hargs)
  | lambda hparams hbody henv =>
    dsimp only
    rw [← hargs.length_eq, ← hparams]
    split
    · exact parallel_throw _
    · next hlen =>
      have hlen := not_not.mp hlen
      exact h.inner ⟨hf.owner_eq, rfl, henv.enter hargs hlen hparams⟩ hbody

end

/-! ## Expressions -/

mutual

theorem eval (h : ParallelAt host left) (hf : Frame.Alpha Γ frame frame') :
    (e : Expr) → {e' : Expr} → e.Alpha Γ e' →
    Evaluation.Parallel host Value.Alpha (eval host left (innerOf host left) frame e)
      (eval host left (innerOf host left) frame' e')
  | .number span _, _, .number => parallel_settle span (Value.alike_self _)
  | .string _ _, _, .string | .boolean _ _, _, .boolean | .null _, _, .null =>
    parallel_pure (.plain rfl)
  | .blob span _ _, _, .blob => parallel_settle span (Value.alike_self _)
  | .identifier span _, _, .identifier hab => h.lookup hf span hab
  | .relative span level name, _, .relative => h.lookupRelative hf span level name
  | .array _ es, _, .array hes => by
    unfold LazyConfig.eval
    apply (h.evalList hf es hes).bind
    intro items items' hitems
    apply hf.fresh.bind
    rintro id _ rfl
    exact parallel_pure (.array hitems)
  | .object _ ms, _, .object hms => by
    unfold LazyConfig.eval
    apply (h.evalMembers hf ms hms .nil).bind
    intro entries entries' hentries
    apply hf.fresh.bind
    rintro id _ rfl
    exact parallel_pure (.object hentries)
  | .call span callee args, _, .call hcallee hargs => by
    unfold LazyConfig.eval
    apply (h.eval hf callee hcallee).bind
    intro found found' hfound
    cases hfound with
    | function hfun =>
      apply (h.evalList hf args hargs).bind
      exact fun values values' hvalues => (h.applyFunction hf hfun hvalues).locating span
    | plain hplain => cases found <;> first | exact parallel_throw _ | cases hplain
    | _ => exact parallel_throw _
  | .lambda _ params body, _, .lambda hparams hbody => by
    unfold LazyConfig.eval
    rw [hf.scopes_eq]
    apply hf.fresh.bind
    rintro id _ rfl
    exact parallel_pure (.function (.lambda hparams hbody hf.env))
  | .binary span op l r, _, .binary hl hr => by
    unfold LazyConfig.eval
    apply (h.eval hf l hl).bind
    intro a a' ha
    rw [ha.decidedBy_eq]
    split
    · exact parallel_pure ha
    apply (h.eval hf r hr).bind
    intro b b' hb
    apply hf.fresh.bind
    rintro id _ rfl
    exact parallel_settle span (Value.alike_binary id op ha hb)
  | .unary span op e, _, .unary he =>
    (h.eval hf e he).bind fun _ _ hv => parallel_settle span (Value.alike_unary op hv)

theorem evalList (h : ParallelAt host left) (hf : Frame.Alpha Γ frame frame') :
    (es : List Expr) → {es' : List Expr} → Expr.AlphaAll Γ es es' →
    Evaluation.Parallel host Value.AlphaItems (evalList host left (innerOf host left) frame es)
      (evalList host left (innerOf host left) frame' es')
  | [], _, .nil => parallel_pure .nil
  | e :: es, _, .cons he hes => by
    unfold LazyConfig.evalList
    apply (h.eval hf e he).bind
    intro v v' hv
    exact (h.evalList hf es hes).bind fun _ _ hvs => parallel_pure (.cons hv hvs)

theorem evalMembers (h : ParallelAt host left) (hf : Frame.Alpha Γ frame frame') :
    (ms : List Member) → {ms' : List Member} → Member.AlphaAll Γ ms ms' →
    {entries entries' : Object Value} → Value.AlphaEntries entries entries' →
    Evaluation.Parallel host Value.AlphaEntries
      (evalMembers host left (innerOf host left) frame entries ms)
      (evalMembers host left (innerOf host left) frame' entries' ms')
  | [], _, .nil, _, _, hentries => parallel_pure hentries
  | .property key e :: later, _, .property he hlater, _, _, hentries => by
    unfold LazyConfig.evalMembers
    apply (h.eval hf e he).bind
    exact fun v v' hv => h.evalMembers hf later hlater (hentries.insert key hv)
  | .spread e :: later, _, .spread he hlater, _, _, hentries => by
    unfold LazyConfig.evalMembers
    apply (h.eval hf e he).bind
    intro found found' hfound
    rw [he.span_eq]
    apply (parallel_mergeSpread _ hentries hfound).bind
    exact fun merged merged' hmerged => h.evalMembers hf later hlater hmerged

end

/-! ## Bindings -/

section

variable (h : ParallelAt host left)

include h

theorem forceMembers (hf : Frame.Alpha [] frame frame') (path : String) {ms ms' : List Member}
    (hms : Member.AlphaAll [] ms ms') {entries entries' : Object Value}
    (hentries : Value.AlphaEntries entries entries') :
    Evaluation.Parallel host Value.AlphaEntries
      (forceMembers host left (innerOf host left) frame path entries ms)
      (forceMembers host left (innerOf host left) frame' path entries' ms') := by
  induction ms generalizing ms' entries entries' with
  | nil =>
    cases hms
    exact parallel_pure hentries
  | cons m later ih =>
    cases hms with
    | property he hlater =>
      unfold LazyConfig.forceMembers
      apply (parallel_lift (h.value _)).bind
      exact fun v v' hv => ih hlater (hentries.insert _ hv)
    | spread he hlater =>
      unfold LazyConfig.forceMembers
      apply (h.eval hf _ he).bind
      intro found found' hfound
      rw [he.span_eq]
      apply (parallel_mergeSpread _ hentries hfound).bind
      exact fun merged merged' hmerged => ih hlater hmerged

theorem evalTask {b b' : Suspension} (hb : b.Alpha b') :
    Evaluation.Parallel host Value.Alpha (evalTask host left (innerOf host left) b)
      (evalTask host left (innerOf host left) b') := by
  obtain ⟨path, scopes, task⟩ := b
  obtain ⟨_, _, task'⟩ := b'
  obtain ⟨rfl, rfl, htask⟩ := hb
  have hf : Frame.Alpha [] ⟨path, scopes, []⟩ ⟨path, scopes, []⟩ := ⟨rfl, rfl, .nil⟩
  unfold LazyConfig.evalTask
  cases htask with
  | expression he => exact h.eval hf _ he
  | members hms =>
    apply (h.forceMembers hf path hms .nil).bind
    intro entries entries' hentries
    apply hf.fresh.bind
    rintro id _ rfl
    exact parallel_pure (.object hentries)

/-- One level further out, bindings that are alike are parallel. -/
theorem behaviour {b b' : Suspension} (hb : b.Alpha b') :
    Attempt.Parallel host Value.Alpha (behaviour host b (left + 1) : Attempt Value)
      (behaviour host b' (left + 1)) :=
  Attempt.Parallel.bind (h.evalTask hb 0) fun _ _ hv => Attempt.parallel_pure hv.1

end

end ParallelAt

/-! ## All levels -/

/-- Evaluation is parallel at every level. -/
theorem parallel_at (host : Host) (left : Nat) : ParallelAt host left := by
  induction left with
  | zero =>
    -- Without a level left, forcings and calls fail alike.
    refine ⟨fun path s s' hs => hs.value (fun b b' hb => ?_) path, fun _ _ => ?_⟩
    · exact Attempt.parallel_throw _
    · exact parallel_throw _
  | succ left ih =>
    refine ⟨fun path s s' hs => hs.value (fun b b' hb => ih.behaviour hb) path, fun hf he => ?_⟩
    show Evaluation.Parallel host Value.Alpha (evaluator host left _ _) (evaluator host left _ _)
    rw [evaluator_eq]
    exact ih.eval hf _ he

end LazyConfig
