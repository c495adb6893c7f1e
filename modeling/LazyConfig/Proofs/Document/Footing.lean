-- What holds of evaluation as long as it stands on firm ground. An evaluation only goes where the
-- expressions of documents lead it: it evaluates them in the scopes they were written in, and asks
-- for names of these scopes and for files. So a judgement about computations holds of all
-- evaluation if it holds of these few operations, and of computations one after another.
-- Main statements: such a judgement holds of what expressions and bindings do at a level, if it
-- holds of requests for bindings and of evaluation one level further in.
import LazyConfig.Proofs.Document.Relations
import LazyConfig.Proofs.Source.Trees
import LazyConfig.Proofs.Value.Closures

namespace LazyConfig

open Evaluation

/-- What evaluation may rely on: stores that fit, and which may come later than which; the
expressions that may be evaluated in given scopes, with given names bound by lambdas; and the
bindings that may be asked for. Time takes none of them away. -/
structure Footing where
  host : Host
  fits : Store Suspension → Prop
  later : Store Suspension → Store Suspension → Prop
  place : Store Suspension → (scopes names : List String) → Expr → Prop
  known : Store Suspension → String → Prop
  place_child : ∀ {s scopes names e inside}, place s scopes names e → inside ∈ e.children →
    place s scopes (e.binds ++ names) inside
  place_later :
    ∀ {s s' scopes names e}, later s s' → place s scopes names e → place s' scopes names e
  known_later : ∀ {s s' n}, later s s' → known s n → known s' n

/-- A judgement about a computation, given at all levels, that is run on a store and is to leave a
result that is good on the store it leaves. -/
abbrev Judgement :=
  (α : Type) → (Store Suspension → α → Prop) → Store Suspension → (Nat → Attempt α) → Prop

variable {α β : Type}

namespace Footing

variable (F : Footing)

/-- All these lambdas may be called. -/
def Upholds (s : Store Suspension) (closures : List Closure) : Prop :=
  ∀ c ∈ closures, F.place s c.scopes c.names c.body

/-- A value that evaluation may go on with. -/
def Sound (s : Store Suspension) (v : Value) : Prop := F.Upholds s v.closures

def SoundItems (s : Store Suspension) (items : List Value) : Prop :=
  F.Upholds s (Value.itemClosures items)

def SoundEntries (s : Store Suspension) (entries : List (String × Value)) : Prop :=
  F.Upholds s (Value.entryClosures entries)

/-- An expression that may be evaluated in a frame. -/
structure Ready (s : Store Suspension) (frame : Frame) (e : Expr) : Prop where
  place : F.place s frame.scopes (frame.env.map (·.1)) e
  env : F.SoundEntries s frame.env

/-- A binding that may be forced. The properties of an object literal are bindings of their own. -/
def Opens (s : Store Suspension) (b : Suspension) : Prop :=
  match b.task with
  | .expression e => F.place s b.scopes [] e
  | .members members => (∀ e, .spread e ∈ members → F.place s b.scopes [] e) ∧
      ∀ key value, .property key value ∈ members → F.known s (childPath b.path key)

/-- The judgement holds of what evaluation is put together of. -/
structure Carries (J : Judgement) : Prop where
  pure {α : Type} {good : Store Suspension → α → Prop} {s : Store Suspension} {a : α} :
    F.fits s → good s a → J α good s fun _ => pure a
  throw {α : Type} {good : Store Suspension → α → Prop} {s : Store Suspension} (e : EvalError) :
    F.fits s → J α good s fun _ => throw e
  bind {α β : Type} {good : Store Suspension → α → Prop} {good' : Store Suspension → β → Prop}
    {s : Store Suspension} {x : Nat → Attempt α} {f : Nat → α → Attempt β} :
    F.fits s → J α good s x →
      (∀ a s', F.fits s' → F.later s s' → good s' a → J β good' s' fun j => f j a) →
        J β good' s fun j => x j >>= f j
  located {α : Type} {good : Store Suspension → α → Prop} {s : Store Suspension}
    {x : Nat → Attempt α} (span : Span) :
    J α good s x → J α good s fun j => ExceptT.adapt (fun e => e.located span) (x j)
  contains {s : Store Suspension} {scopes names : List String} {e : Expr} {scope : String}
    (name : String) : F.fits s → F.place s scopes names e → scope ∈ scopes →
      J Bool (fun s' found => found = true → F.known s' (childPath scope name)) s
        fun _ => Attempt.contains (childPath scope name)
  loadFile {s : Store Suspension} (path : String) :
    F.fits s → J String F.known s fun _ => Attempt.loadFile F.host path

/-- The judgement at a level, where it also holds of requests for bindings and of evaluation one
level further in. -/
structure CarriesAt (J : Judgement) : Prop extends Carries F J where
  value {s : Store Suspension} {path : String} :
    F.fits s → F.known s path → J Value F.Sound s fun j => Attempt.value j path
  inner {s : Store Suspension} {frame : Frame} {e : Expr} (count : Nat) :
    F.fits s → F.Ready s frame e → J (Value × Nat) (fun s' p => F.Sound s' p.1) s fun j =>
      (innerOf F.host j).enter frame e count

variable {F}

/-! ## Places -/

variable {s s' : Store Suspension} {frame : Frame} {e : Expr}

theorem upholds_nil : F.Upholds s [] := List.forall_mem_nil _

theorem Upholds.later {closures : List Closure} (h : F.Upholds s closures) (hlater : F.later s s') :
    F.Upholds s' closures := fun c hc => F.place_later hlater (h c hc)

theorem upholds_append {closures more : List Closure} :
    F.Upholds s (closures ++ more) ↔ F.Upholds s closures ∧ F.Upholds s more :=
  List.forall_mem_append

theorem sound_plain {v : Value} (h : v.identity? = none) : F.Sound s v := by
  unfold Sound
  rw [Value.closures_of_plain h]
  exact upholds_nil

theorem soundEntries_nil : F.SoundEntries s [] := upholds_nil

theorem SoundEntries.insert {entries : Object Value} (h : F.SoundEntries s entries) {v : Value}
    (hv : F.Sound s v) (key : String) : F.SoundEntries s (entries.insert key v) := by
  intro c hc
  rcases Value.mem_entryClosures_insert hc with hc | hc
  · exact hv c hc
  · exact h c hc

theorem SoundEntries.extend {entries more : Object Value} (h : F.SoundEntries s entries)
    (hmore : F.SoundEntries s more) : F.SoundEntries s (entries.extend more) := by
  intro c hc
  rcases Value.mem_entryClosures_extend hc with hc | hc
  · exact h c hc
  · exact hmore c hc

/-- A call evaluates the body of a lambda where it was written, with the arguments around it. -/
theorem ready_body {params : List String} {body : Expr} {scopes : List String}
    {env : List (String × Value)} {args : List Value} (owner : String)
    (harity : args.length = params.length)
    (hf : F.Upholds s (Function.lambda params body scopes env).closures)
    (hargs : F.SoundItems s args) : F.Ready s ⟨owner, scopes, params.zip args ++ env⟩ body := by
  obtain ⟨hbody, henv⟩ := List.forall_mem_cons.mp hf
  have hnames : (params.zip args ++ env).map (·.1) = params ++ env.map (·.1) := by
    rw [List.map_append, List.map_fst_zip (Nat.le_of_eq harity.symm)]
  refine ⟨hnames ▸ hbody, ?_⟩
  unfold SoundEntries
  rw [Value.entryClosures_append]
  exact upholds_append.mpr ⟨fun c hc => hargs c (Value.mem_entryClosures_zip hc), henv⟩

/-- What stands in an expression other than a lambda is evaluated in the same frame. -/
theorem Ready.child (h : F.Ready s frame e) (hbinds : e.binds = []) {inside : Expr}
    (hmem : inside ∈ e.children) : F.Ready s frame inside := by
  have hplace := F.place_child h.place hmem
  rw [hbinds] at hplace
  exact ⟨hplace, h.env⟩

theorem Ready.later (h : F.Ready s frame e) (hlater : F.later s s') : F.Ready s' frame e :=
  ⟨F.place_later hlater h.place, Upholds.later h.env hlater⟩

/-- Expressions next to one another that may all be evaluated in a frame. -/
def ReadyAll (F : Footing) (s : Store Suspension) (frame : Frame) (es : List Expr) : Prop :=
  ∀ e ∈ es, F.Ready s frame e

theorem ReadyAll.later {es : List Expr} (h : F.ReadyAll s frame es) (hlater : F.later s s') :
    F.ReadyAll s' frame es := fun e he => (h e he).later hlater

/-- What members spread may be evaluated in a frame. -/
def ReadySpreads (F : Footing) (s : Store Suspension) (frame : Frame)
    (members : List Member) : Prop :=
  ∀ e, .spread e ∈ members → F.Ready s frame e

theorem ReadySpreads.later {members : List Member} (h : F.ReadySpreads s frame members)
    (hlater : F.later s s') : F.ReadySpreads s' frame members := fun e he => (h e he).later hlater

theorem ReadyAll.spreads {members : List Member}
    (h : F.ReadyAll s frame (members.map Member.expr)) :
    F.ReadySpreads s frame members := fun _ he => h _ (List.mem_map_of_mem he)

/-! ## Inside a forcing -/

/-- The judgement of an evaluation, however many values the forcing has made. -/
def OfEvaluation (J : Judgement) (good : Store Suspension → α → Prop) (s : Store Suspension)
    (x : Nat → Evaluation α) : Prop :=
  ∀ count, J (α × Nat) (fun s' p => good s' p.1) s fun j => x j count

namespace Carries

variable {J : Judgement} (h : F.Carries J) {good : Store Suspension → α → Prop}
variable {good' : Store Suspension → β → Prop}

include h

theorem evalPure (hs : F.fits s) {a : α} (ha : good s a) :
    OfEvaluation J good s fun _ => Pure.pure a := fun _ => h.pure hs ha

theorem evalThrow (hs : F.fits s) (e : EvalError) :
    OfEvaluation J good s fun _ => (MonadExcept.throw e : Evaluation α) := fun _ => h.throw e hs

theorem evalBind (hs : F.fits s) {x : Nat → Evaluation α} {f : Nat → α → Evaluation β}
    (hx : OfEvaluation J good s x)
    (hf : ∀ a s', F.fits s' → F.later s s' → good s' a → OfEvaluation J good' s' fun j => f j a) :
    OfEvaluation J good' s fun j => x j >>= f j := by
  intro count
  apply h.bind hs (hx count)
  intro p s' hs' hlater hp
  exact hf p.1 s' hs' hlater hp p.2

theorem lift (hs : F.fits s) {x : Nat → Attempt α} (hx : J α good s x) :
    OfEvaluation J good s fun j => liftM (x j) := by
  intro count
  apply h.bind hs hx
  intro a s' hs' _ ha
  exact h.pure hs' ha

theorem locating {x : Nat → Evaluation α} (hx : OfEvaluation J good s x) (span : Span) :
    OfEvaluation J good s fun j => Evaluation.locating span (x j) :=
  fun count => h.located span (hx count)

theorem fresh (hs : F.fits s) (frame : Frame) :
    OfEvaluation J (fun _ _ => True) s fun _ => fresh frame := fun _ => h.pure hs trivial

theorem settle (hs : F.fits s) (span : Span) {r : Except RuntimeCause α}
    (hr : ∀ a, r = .ok a → good s a) : OfEvaluation J good s fun _ => settle span r := by
  cases r with
  | ok a => exact h.evalPure hs (hr a rfl)
  | error cause => exact h.evalThrow hs _

theorem findScoped (hs : F.fits s) {scopes around names : List String}
    (he : F.place s around names e) (hscopes : scopes ⊆ around) (name : String) :
    J (Option String) (fun s' found => ∀ path, found = some path → F.known s' path) s
      fun _ => findScoped name scopes := by
  induction scopes generalizing s with
  | nil => exact h.pure hs (by simp)
  | cons scope outer ih =>
    obtain ⟨hscope, houter⟩ := List.cons_subset.mp hscopes
    unfold LazyConfig.findScoped
    apply h.bind hs (h.contains name hs he hscope)
    intro found s' hs' hlater hfound
    cases found with
    | true =>
      refine h.pure hs' fun path hpath => ?_
      rw [Option.some.injEq] at hpath
      exact hpath ▸ hfound rfl
    | false => exact ih hs' (F.place_later hlater he) houter

theorem mergeSpread (hs : F.fits s) (span : Span) {entries : Object Value} {found : Value}
    (hentries : F.SoundEntries s entries) (hfound : F.Sound s found) :
    OfEvaluation J F.SoundEntries s fun _ => mergeSpread span entries found := by
  cases found with
  | object id more => exact h.evalPure hs (hentries.extend hfound)
  | _ => exact h.evalThrow hs _

theorem readText (hs : F.fits s) (path : String) :
    J String (fun _ _ => True) s fun _ => Attempt.readText F.host path := by
  unfold Attempt.readText
  cases F.host.storage.readText path with
  | ok text => exact h.pure hs trivial
  | error e => exact h.throw _ hs

theorem readBytes (hs : F.fits s) (path : String) :
    J Bytes (fun _ _ => True) s fun _ => Attempt.readBytes F.host path := by
  unfold Attempt.readBytes
  cases F.host.storage.readBytes path with
  | ok bytes => exact h.pure hs trivial
  | error e => exact h.throw _ hs

end Carries

namespace CarriesAt

variable {J : Judgement} (h : F.CarriesAt J)

include h

/-! ## Names -/

theorem lookup (hs : F.fits s) (hready : F.Ready s frame e) (span : Span) (name : String) :
    OfEvaluation J F.Sound s fun j => lookup j frame span name := by
  unfold LazyConfig.lookup
  cases henv : frame.env.lookup name with
  | some v =>
    exact h.evalPure hs fun c hc => hready.env c (Value.mem_closures_of_lookup henv hc)
  | none =>
    apply h.evalBind hs
      (h.lift hs (h.findScoped hs hready.place (List.Subset.refl frame.scopes) name))
    intro found s' hs' _ hfound
    cases found with
    | some path => exact h.lift hs' (h.value hs' (hfound path rfl))
    | none =>
      cases Builtin.ofName? name with
      | none => exact h.evalThrow hs' _
      | some b =>
        apply h.evalBind hs' (h.fresh hs' frame)
        intro id s'' hs'' _ _
        exact h.evalPure hs'' upholds_nil

theorem lookupRelative (hs : F.fits s) (hready : F.Ready s frame e) (span : Span) (level : Nat)
    (name : String) : OfEvaluation J F.Sound s fun j => lookupRelative j frame span level name := by
  unfold LazyConfig.lookupRelative
  cases hscope : frame.scopes[level]? with
  | none => exact h.evalThrow hs _
  | some scope =>
    apply h.evalBind hs
      (h.lift hs (h.contains name hs hready.place (List.mem_of_getElem? hscope)))
    intro found s' hs' _ hfound
    cases found with
    | true => exact h.lift hs' (h.value hs' (hfound rfl))
    | false => exact h.evalThrow hs' _

/-! ## Calls -/

theorem applyBuiltin (hs : F.fits s) (b : Builtin) (args : List Value) :
    J Value F.Sound s fun j => applyBuiltin F.host j b args := by
  match args with
  | [] => exact h.throw _ hs
  | v :: _ :: _ => cases v <;> exact h.throw _ hs
  | [.string path] =>
    cases b with
    | document =>
      apply h.bind hs (h.loadFile path hs)
      intro name s' hs' _ hname
      exact h.value hs' hname
    | text =>
      apply h.bind hs (h.readText hs path)
      intro text s' hs' _ _
      exact h.pure hs' upholds_nil
    | blob =>
      apply h.bind hs (h.readBytes hs path)
      intro bytes s' hs' _ _
      exact h.pure hs' upholds_nil
  | [.undefined] | [.null] | [.boolean _] | [.number _] | [.bigint _] | [.blob _] | [.array _ _]
  | [.object _ _] | [.function _ _] => exact h.throw _ hs

theorem applyFunction (hs : F.fits s) (frame : Frame) {f : Function}
    (hf : F.Upholds s f.closures) {args : List Value} (hargs : F.SoundItems s args) :
    OfEvaluation J F.Sound s fun j => applyFunction F.host j (innerOf F.host j) frame f args := by
  unfold LazyConfig.applyFunction
  cases f with
  | host name => exact h.evalThrow hs _
  | builtin b => exact h.lift hs (h.applyBuiltin hs b args)
  | lambda params body scopes env =>
    by_cases hlength : args.length ≠ params.length
    · simp only [if_pos hlength]
      exact h.evalThrow hs _
    · simp only [if_neg hlength]
      have hready := ready_body frame.owner (Decidable.of_not_not hlength) hf hargs
      exact fun count => h.inner count hs hready

/-! ## Expressions -/

mutual

theorem eval (frame : Frame) : (e : Expr) → {s : Store Suspension} → F.fits s → F.Ready s frame e →
    OfEvaluation J F.Sound s fun j => eval F.host j (innerOf F.host j) frame e
  | .number span text, s, hs, _ => by
    unfold LazyConfig.eval
    exact h.settle hs span fun v hv => sound_plain (Value.plain_ofNumber hv)
  | .string _ _, s, hs, _ | .boolean _ _, s, hs, _ | .null _, s, hs, _ => by
    unfold LazyConfig.eval
    exact h.evalPure hs upholds_nil
  | .blob span form text, s, hs, _ => by
    unfold LazyConfig.eval
    exact h.settle hs span fun v hv => sound_plain (Value.plain_ofBlob hv)
  | .identifier span name, s, hs, hready => by
    unfold LazyConfig.eval
    exact h.lookup hs hready span name
  | .relative span level name, s, hs, hready => by
    unfold LazyConfig.eval
    exact h.lookupRelative hs hready span level name
  | .array _ elements, s, hs, hready => by
    unfold LazyConfig.eval
    apply h.evalBind hs (evalList frame elements hs fun e he => hready.child rfl he)
    intro items s' hs' _ hitems
    apply h.evalBind hs' (h.fresh hs' frame)
    intro id s'' hs'' hlater _
    exact h.evalPure hs'' (Upholds.later hitems hlater)
  | .object _ members, s, hs, hready => by
    unfold LazyConfig.eval
    apply h.evalBind hs
      (evalMembers frame members hs (fun e he => hready.child rfl he) soundEntries_nil)
    intro entries s' hs' _ hentries
    apply h.evalBind hs' (h.fresh hs' frame)
    intro id s'' hs'' hlater _
    exact h.evalPure hs'' (Upholds.later hentries hlater)
  | .call span callee args, s, hs, hready => by
    unfold LazyConfig.eval
    apply h.evalBind hs (eval frame callee hs (hready.child rfl List.mem_cons_self))
    intro found s' hs' hlater hfound
    cases found with
    | function id f =>
      have hargs : F.ReadyAll s frame args :=
        fun e he => hready.child rfl (List.mem_cons_of_mem _ he)
      apply h.evalBind hs' (evalList frame args hs' (hargs.later hlater))
      intro values s'' hs'' hlater' hvalues
      exact h.locating (h.applyFunction hs'' frame (Upholds.later hfound hlater') hvalues) span
    | _ => exact h.evalThrow hs' _
  | .lambda _ params body, s, hs, hready => by
    unfold LazyConfig.eval
    apply h.evalBind hs (h.fresh hs frame)
    intro id s' hs' hlater _
    have hlambda := hready.later hlater
    have hbody := F.place_child hlambda.place (List.mem_singleton_self body)
    exact h.evalPure hs' (List.forall_mem_cons.mpr ⟨hbody, hlambda.env⟩)
  | .binary span op l r, s, hs, hready => by
    unfold LazyConfig.eval
    apply h.evalBind hs (eval frame l hs (hready.child rfl List.mem_cons_self))
    intro a s' hs' hlater ha
    by_cases hdecided : op.decidedBy a = true
    · simp only [if_pos hdecided]
      exact h.evalPure hs' ha
    · simp only [if_neg hdecided]
      have hright := (hready.later hlater).child rfl (List.mem_cons_of_mem _ List.mem_cons_self)
      apply h.evalBind hs' (eval frame r hs' hright)
      intro b s'' hs'' hlater' hb
      apply h.evalBind hs'' (h.fresh hs'' frame)
      intro id t ht hlater'' _
      refine h.settle ht span fun v hv c hc => ?_
      rcases Value.mem_closures_binary hv hc with hc | hc
      · exact ((Upholds.later ha hlater').later hlater'') c hc
      · exact (Upholds.later hb hlater'') c hc
  | .unary span op operand, s, hs, hready => by
    unfold LazyConfig.eval
    apply h.evalBind hs (eval frame operand hs (hready.child rfl List.mem_cons_self))
    intro a s' hs' _ _
    exact h.settle hs' span fun v hv => sound_plain (Value.plain_unary hv)

theorem evalList (frame : Frame) : (es : List Expr) → {s : Store Suspension} → F.fits s →
    F.ReadyAll s frame es →
      OfEvaluation J F.SoundItems s fun j => evalList F.host j (innerOf F.host j) frame es
  | [], s, hs, _ => by
    unfold LazyConfig.evalList
    exact h.evalPure hs upholds_nil
  | e :: es, s, hs, hready => by
    obtain ⟨he, hes⟩ := List.forall_mem_cons.mp hready
    unfold LazyConfig.evalList
    apply h.evalBind hs (eval frame e hs he)
    intro v s' hs' hlater hv
    apply h.evalBind hs' (evalList frame es hs' (ReadyAll.later hes hlater))
    intro vs s'' hs'' hlater' hvs
    exact h.evalPure hs'' (upholds_append.mpr ⟨Upholds.later hv hlater', hvs⟩)

theorem evalMembers (frame : Frame) : (members : List Member) → {s : Store Suspension} →
    F.fits s → F.ReadyAll s frame (members.map Member.expr) → {entries : Object Value} →
      F.SoundEntries s entries →
        OfEvaluation J F.SoundEntries s fun j =>
          evalMembers F.host j (innerOf F.host j) frame entries members
  | [], s, hs, _, entries, hentries => by
    unfold LazyConfig.evalMembers
    exact h.evalPure hs hentries
  | .property key e :: later, s, hs, hready, entries, hentries => by
    obtain ⟨he, hmore⟩ := List.forall_mem_cons.mp hready
    unfold LazyConfig.evalMembers
    apply h.evalBind hs (eval frame e hs he)
    intro v s' hs' hlater hv
    have hentries' : F.SoundEntries s' entries := Upholds.later hentries hlater
    exact evalMembers frame later hs' (ReadyAll.later hmore hlater) (hentries'.insert hv key)
  | .spread e :: later, s, hs, hready, entries, hentries => by
    obtain ⟨he, hmore⟩ := List.forall_mem_cons.mp hready
    unfold LazyConfig.evalMembers
    apply h.evalBind hs (eval frame e hs he)
    intro found s' hs' hlater hfound
    apply h.evalBind hs' (h.mergeSpread hs' e.span (Upholds.later hentries hlater) hfound)
    intro merged s'' hs'' hlater' hmerged
    exact evalMembers frame later hs'' ((ReadyAll.later hmore hlater).later hlater') hmerged

end

/-! ## Bindings -/

theorem forceMembers {path : String} {members : List Member} (hs : F.fits s)
    (hready : F.ReadySpreads s frame members)
    (hknown : ∀ key value, .property key value ∈ members → F.known s (childPath path key))
    {entries : Object Value} (hentries : F.SoundEntries s entries) :
    OfEvaluation J F.SoundEntries s fun j =>
      forceMembers F.host j (innerOf F.host j) frame path entries members := by
  induction members generalizing s entries with
  | nil => exact h.evalPure hs hentries
  | cons m later ih =>
    have hmore : F.ReadySpreads s frame later := fun e he => hready e (List.mem_cons_of_mem _ he)
    have hlater : ∀ {s'}, F.later s s' → ∀ key value, .property key value ∈ later →
        F.known s' (childPath path key) := fun hlater key value hmem =>
      F.known_later hlater (hknown key value (List.mem_cons_of_mem _ hmem))
    cases m with
    | property key value =>
      apply h.evalBind hs (h.lift hs (h.value hs (hknown key value List.mem_cons_self)))
      intro v s' hs' hnext hv
      have hentries' : F.SoundEntries s' entries := Upholds.later hentries hnext
      exact ih hs' (hmore.later hnext) (hlater hnext) (hentries'.insert hv key)
    | spread e =>
      apply h.evalBind hs (h.eval frame e hs (hready e List.mem_cons_self))
      intro found s' hs' hnext hfound
      apply h.evalBind hs' (h.mergeSpread hs' e.span (Upholds.later hentries hnext) hfound)
      intro merged s'' hs'' hnext' hmerged
      exact ih hs'' ((hmore.later hnext).later hnext')
        (fun key value hmem => F.known_later hnext' (hlater hnext key value hmem)) hmerged

/-- The judgement holds of what a binding evaluates. -/
theorem task {b : Suspension} (hs : F.fits s) (hb : F.Opens s b) :
    J Value F.Sound s fun j => (evalTask F.host j (innerOf F.host j) b).run' 0 := by
  have heval : OfEvaluation J F.Sound s fun j => evalTask F.host j (innerOf F.host j) b := by
    unfold evalTask
    unfold Opens at hb
    cases htask : b.task with
    | expression e =>
      rw [htask] at hb
      exact h.eval _ e hs ⟨hb, soundEntries_nil⟩
    | members members =>
      rw [htask] at hb
      obtain ⟨hplace, hknown⟩ := hb
      have hready : F.ReadySpreads s ⟨b.path, b.scopes, []⟩ members := fun e he =>
        ⟨hplace e he, soundEntries_nil⟩
      apply h.evalBind hs (h.forceMembers hs hready hknown soundEntries_nil)
      intro entries s' hs' _ hentries
      apply h.evalBind hs' (h.fresh hs' _)
      intro id s'' hs'' hlater _
      exact h.evalPure hs'' (Upholds.later hentries hlater)
  apply h.bind hs (heval 0)
  intro p s' hs' _ hv
  exact h.pure hs' hv

end CarriesAt

end Footing

end LazyConfig
