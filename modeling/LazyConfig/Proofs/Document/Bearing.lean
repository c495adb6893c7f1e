-- Evaluation stays on its footing, scene by scene. What is under way leads only to what the footing
-- bears too, so whatever raises an error in the end stands where expressions may be evaluated.
-- Main statement: all errors of a request are raised by expressions that the footing has places
-- for.
import LazyConfig.Proofs.Document.Lasting
import LazyConfig.Proofs.Document.Raising

namespace LazyConfig

open Store Evaluation Relation

namespace Footing

/-- What is under way may be: the store fits, expressions are ready to be evaluated, and the values
that a call goes on with are sound. -/
structure Bears (F : Footing) (x : Scene) : Prop where
  fits : F.fits x.2.store
  body : ∀ left b, x.1 = .body left b → F.Opens x.2.store b
  expression : ∀ left frame e, x.1 = .expression left frame e → F.Ready x.2.store frame e
  call : ∀ left frame f args, x.1 = .call left frame f args →
    F.Upholds x.2.store f.closures ∧ F.SoundItems x.2.store args

variable {F : Footing} {base : Store Suspension → Prop} {left : Nat} {p p' : Stage} {α : Type}

theorem bears_request {name : String} (h : F.fits p.store) : F.Bears (.request left name, p) :=
  ⟨h, nofun, nofun, nofun⟩

theorem bears_body {b : Suspension} (h : F.fits p.store) (hopens : F.Opens p.store b) :
    F.Bears (.body left b, p) :=
  ⟨h, fun _ _ heq => by cases heq; exact hopens, nofun, nofun⟩

theorem bears_expression {frame : Frame} {e : Expr} (h : F.fits p.store)
    (hready : F.Ready p.store frame e) : F.Bears (.expression left frame e, p) :=
  ⟨h, nofun, fun _ _ _ heq => by cases heq; exact hready, nofun⟩

theorem bears_call {frame : Frame} {f : Function} {args : List Value} (h : F.fits p.store)
    (hf : F.Upholds p.store f.closures) (hargs : F.SoundItems p.store args) :
    F.Bears (.call left frame f args, p) :=
  ⟨h, nofun, nofun, fun _ _ _ _ heq => by cases heq; exact ⟨hf, hargs⟩⟩

/-- An evaluation that succeeds leads to a stage at which the store fits and the result is good. -/
theorem Lasts.succeeds (h : F.Lasts base) {good : Store Suspension → α → Prop}
    {x : Nat → Evaluation α} (hx : OfEvaluation (F.Ends left) good p.store x) {a : α}
    (hsucceeds : Succeeds F.host (x left) p a p') :
    F.fits p'.store ∧ F.later p.store p'.store ∧ good p'.store a := by
  have hlater := h.later (precedes_exec (behaviour F.host) (x left p.made).run p.store)
  obtain ⟨hfits, hgood⟩ := hx p.made
  unfold Succeeds at hsucceeds
  rw [hsucceeds] at hlater hfits hgood
  exact ⟨hfits, hlater, hgood _ rfl⟩

/-! ## Parts of what is under way -/

section

variable (h : F.Lasts base) {frame : Frame}

include h

theorem Lasts.evalList {es : List Expr} {vs : List Value} (hp : F.fits p.store)
    (hready : F.ReadyAll p.store frame es)
    (hes : Succeeds F.host (evalList F.host left (innerOf F.host left) frame es) p vs p') :
    F.fits p'.store ∧ F.later p.store p'.store ∧ F.SoundItems p'.store vs :=
  h.succeeds ((h.ends left).evalList frame es hp hready) hes

theorem Lasts.eval {e : Expr} {v : Value} (hp : F.fits p.store) (hready : F.Ready p.store frame e)
    (he : Succeeds F.host (eval F.host left (innerOf F.host left) frame e) p v p') :
    F.fits p'.store ∧ F.later p.store p'.store ∧ F.Sound p'.store v :=
  h.succeeds ((h.ends left).eval frame e hp hready) he

theorem Lasts.evalMembers {members : List Member} {entries : Object Value} (hp : F.fits p.store)
    (hready : F.ReadyAll p.store frame (members.map Member.expr))
    (hmembers : Succeeds F.host (evalMembers F.host left (innerOf F.host left) frame [] members) p
      entries p') : F.fits p'.store ∧ F.later p.store p'.store := by
  obtain ⟨hfits, hlater, _⟩ :=
    h.succeeds ((h.ends left).evalMembers frame members hp hready soundEntries_nil) hmembers
  exact ⟨hfits, hlater⟩

theorem Lasts.forceMembers {path : String} {members : List Member} {entries : Object Value}
    (hp : F.fits p.store) (hready : F.ReadySpreads p.store frame members)
    (hmembers : Succeeds F.host
      (forceMembers F.host left (innerOf F.host left) frame path [] members) p entries p') :
    F.fits p'.store ∧ F.later p.store p'.store := by
  obtain ⟨hfits, hlater, _⟩ := h.succeeds
    ((h.ends left).forceMembers hp hready (fun _ _ _ => h.known) soundEntries_nil) hmembers
  exact ⟨hfits, hlater⟩

end

/-- What the members of a binding spread is ready to be evaluated in its frame. -/
theorem ready_spreads {s : Store Suspension} {b : Suspension} {members : List Member}
    (hopens : F.Opens s b) (htask : b.task = .members members) :
    F.ReadySpreads s b.frame members := by
  unfold Opens at hopens
  rw [htask] at hopens
  exact fun e he => ⟨hopens.1 e he, soundEntries_nil⟩

theorem ReadySpreads.front {s : Store Suspension} {frame : Frame} {front later : List Member}
    (h : F.ReadySpreads s frame (front ++ later)) : F.ReadySpreads s frame front :=
  fun e he => h e (List.mem_append_left _ he)

theorem ReadySpreads.next {s : Store Suspension} {frame : Frame}
    {front later : List Member} {e : Expr}
    (h : F.ReadySpreads s frame (front ++ .spread e :: later)) : F.Ready s frame e :=
  h e (List.mem_append_right _ List.mem_cons_self)

theorem ReadyAll.front {s : Store Suspension} {frame : Frame} {front later : List Expr}
    (h : F.ReadyAll s frame (front ++ later)) : F.ReadyAll s frame front :=
  fun e he => h e (List.mem_append_left _ he)

theorem ReadyAll.next {s : Store Suspension} {frame : Frame} {front later : List Expr} {e : Expr}
    (h : F.ReadyAll s frame (front ++ e :: later)) : F.Ready s frame e :=
  h e (List.mem_append_right _ List.mem_cons_self)

end Footing

open Footing

variable {F : Footing} {base : Store Suspension → Prop}

/-- From a scene that the footing bears only such scenes are reached. -/
theorem Inside.bears (hF : F.Lasts base) {x y : Scene} (h : Inside F.host x y) (hx : F.Bears x) :
    F.Bears y := by
  cases h with
  | @force left name b s made hrun =>
    have hopens := hF.opens (hF.fits_iff.mp hx.fits).1 (body?_of_reply hrun)
    exact bears_body (hF.fits_start hx.fits name) (hopens.later (hF.later (precedes_start s name)))
  | @task left b e p htask =>
    have hopens := hx.body _ b rfl
    unfold Opens at hopens
    rw [htask] at hopens
    exact bears_expression hx.fits ⟨hopens, soundEntries_nil⟩
  | @property left b front key e later entries p p' htask hfront =>
    have hready := ready_spreads (hx.body _ b rfl) htask
    exact bears_request (hF.forceMembers hx.fits hready.front hfront).1
  | @spread left b front e later entries p p' htask hfront =>
    have hready := ready_spreads (hx.body _ b rfl) htask
    obtain ⟨hfits, hlater⟩ := hF.forceMembers hx.fits hready.front hfront
    exact bears_expression hfits (hready.next.later hlater)
  | @element left frame span front e later vs p p' hfront =>
    have hready : F.ReadyAll p.store frame (front ++ e :: later) :=
      fun inside hmem => (hx.expression _ _ _ rfl).child rfl hmem
    obtain ⟨hfits, hlater, _⟩ := hF.evalList hx.fits hready.front hfront
    exact bears_expression hfits (hready.next.later hlater)
  | @member left frame span front m later entries p p' hfront =>
    have hready : F.ReadyAll p.store frame ((front ++ m :: later).map Member.expr) :=
      fun inside hmem => (hx.expression _ _ _ rfl).child rfl hmem
    rw [List.map_append, List.map_cons] at hready
    obtain ⟨hfits, hlater⟩ := hF.evalMembers hx.fits hready.front hfront
    exact bears_expression hfits (hready.next.later hlater)
  | callee =>
    exact bears_expression hx.fits ((hx.expression _ _ _ rfl).child rfl List.mem_cons_self)
  | @argument left frame span callee front e later id f vs p p' p'' hcallee hfront =>
    have hcall := hx.expression _ _ _ rfl
    have hargs : F.ReadyAll p.store frame (front ++ e :: later) :=
      fun inside hmem => hcall.child rfl (List.mem_cons_of_mem _ hmem)
    obtain ⟨hfits, hlater, _⟩ := hF.eval hx.fits (hcall.child rfl List.mem_cons_self) hcallee
    obtain ⟨hfits', hlater', _⟩ := hF.evalList hfits (hargs.front.later hlater) hfront
    exact bears_expression hfits' ((hargs.next.later hlater).later hlater')
  | @call left frame span callee args id f vs p p' p'' hcallee hargs =>
    have hcall := hx.expression _ _ _ rfl
    have hready : F.ReadyAll p.store frame args :=
      fun inside hmem => hcall.child rfl (List.mem_cons_of_mem _ hmem)
    obtain ⟨hfits, hlater, hf⟩ := hF.eval hx.fits (hcall.child rfl List.mem_cons_self) hcallee
    obtain ⟨hfits', hlater', hvs⟩ := hF.evalList hfits (hready.later hlater) hargs
    exact bears_call hfits' (Upholds.later hf hlater') hvs
  | left => exact bears_expression hx.fits ((hx.expression _ _ _ rfl).child rfl List.mem_cons_self)
  | right hleft hopen =>
    have hbinary := hx.expression _ _ _ rfl
    obtain ⟨hfits, hlater, _⟩ := hF.eval hx.fits (hbinary.child rfl List.mem_cons_self) hleft
    exact bears_expression hfits
      ((hbinary.child rfl (List.mem_cons_of_mem _ List.mem_cons_self)).later hlater)
  | operand =>
    exact bears_expression hx.fits ((hx.expression _ _ _ rfl).child rfl List.mem_cons_self)
  | name => exact bears_request hx.fits
  | relative => exact bears_request hx.fits
  | @lambda left frame params body scopes env args p harity =>
    obtain ⟨hf, hargs⟩ := hx.call _ _ _ _ rfl
    exact bears_expression hx.fits (ready_body frame.owner harity hf hargs)
  | @document left frame path name p p' hload =>
    have hfits := hF.fits_loadFile hx.fits path
    rw [(succeeds_lift.mp hload).1] at hfits
    exact bears_request hfits

theorem Footing.Bears.reached (hF : F.Lasts base) {x y : Scene} (hx : F.Bears x)
    (h : ReflTransGen (Inside F.host) x y) : F.Bears y := by
  induction h with
  | refl => exact hx
  | tail _ hinside ih => exact hinside.bears hF ih

/-- What raises an error in a scene that the footing bears has a place there. -/
theorem Faults.place {x : Scene} {node : Expr} {cause : RuntimeCause}
    (h : Faults F.host x node cause) (hx : F.Bears x) :
    ∃ scopes names, F.place x.2.store scopes names node := by
  cases h with
  | @member left frame span front _ later entries v p p' p'' =>
    have hobject := hx.expression _ _ _ rfl
    have hmem : node ∈ (Expr.object span (front ++ .spread node :: later)).children := by
      simp [Expr.children, Member.expr]
    exact ⟨_, _, (hobject.child rfl hmem).place⟩
  | @spread left b front _ later entries v p p' p'' htask =>
    exact ⟨_, _, (ready_spreads (hx.body _ b rfl) htask).next.place⟩
  | _ => exact ⟨_, _, (hx.expression _ _ _ rfl).place⟩

/-- Errors of requests are raised where the footing has a place. -/
theorem Raised.place (hF : F.Lasts base) {x : Scene} {err : RuntimeError} (h : Raised F.host x err)
    (hx : F.Bears x) :
    ∃ y node, ReflTransGen (Inside F.host) x y ∧ Faults F.host y node err.cause ∧
      err.span? = some node.span ∧ ∃ scopes names, F.place y.2.store scopes names node := by
  obtain ⟨y, node, hchain, hfaults, hspan⟩ := h
  exact ⟨y, node, hchain, hfaults, hspan, hfaults.place (hx.reached hF hchain)⟩

end LazyConfig
