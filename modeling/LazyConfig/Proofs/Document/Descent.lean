-- Why evaluation ends, and how deep it nests. All that is evaluated inside of an activity is
-- smaller by the measure: a forcing takes a step, a call or the body of a binding takes a level,
-- and otherwise an expression is smaller than the one around it. So the measure carries an
-- induction over all evaluation.
-- Main statement: the evaluator that recurs on fuel never gives up, and ends as evaluation does.
import LazyConfig.Proofs.Document.Nesting
import LazyConfig.Proofs.Document.Stages

namespace LazyConfig

open Store Evaluation

variable {α β : Type} {host : Host} {ceiling left : Nat} {s s' : Store Suspension}

/-! ## Following evaluation -/

/-- The watching evaluation ends as the other one, if the documents loaded then are no taller than
the ceiling. -/
def Follows (host : Host) (ceiling : Nat) (s : Store Suspension) (w : Watching α)
    (x : Evaluation α) : Prop :=
  ∀ count, (s.exec (behaviour host) (x count).run).2.height ≤ ceiling →
    (w count).run.run s = some (s.exec (behaviour host) (x count).run)

theorem follows_pure (a : α) : Follows host ceiling s (pure a) (pure a) := fun _ _ => rfl

theorem follows_throw (e : EvalError) :
    Follows host ceiling s (throw e : Watching α) (throw e) := fun _ _ => rfl

theorem Watching.run_bind (w : Watching α) (g : α → Watching β) (count : Nat)
    (s : Store Suspension) :
    ((w >>= g) count).run.run s =
      match (w count).run.run s with
      | none => none
      | some (.ok p, s') => (g p.1 p.2).run.run s'
      | some (.error e, s') => some (.error e, s') := by
  show Option.bind ((w count).run.run s) _ = _
  rcases (w count).run.run s with _ | ⟨r, s'⟩
  · rfl
  · cases r <;> rfl

/-- One after another, with what is known of the first one's outcome. -/
theorem Follows.bind (left : Nat) {good : Store Suspension → α → Prop} {w : Watching α}
    {x : Evaluation α} {g : α → Watching β} {f : α → Evaluation β}
    (hmeasured : Footing.OfEvaluation (Measured host left) good s fun _ => x)
    (hx : Follows host ceiling s w x)
    (hf : ∀ a s', (stature host).fits s' → (stature host).later s s' → good s' a →
      Follows host ceiling s' (g a) (f a)) :
    Follows host ceiling s (w >>= g) (x >>= f) := by
  intro count hceiling
  have hlater := later_exec host (x count) s
  obtain ⟨hfits, hgood⟩ := hmeasured count
  have hw := hx count
  rw [Watching.run_bind]
  rw [exec_evaluation_bind] at hceiling ⊢
  generalize s.exec (behaviour host) (x count).run = out at hlater hfits hgood hw hceiling ⊢
  obtain ⟨r, s'⟩ := out
  cases r with
  | error e => rw [hw hceiling]
  | ok p =>
    rw [hw (Nat.le_trans (height_exec_le _ _ s') hceiling)]
    exact hf p.1 s' hfits hlater (hgood p rfl) p.2 hceiling

theorem Follows.locating {w : Watching α} {x : Evaluation α} (hx : Follows host ceiling s w x)
    (span : Span) :
    Follows host ceiling s (Watching.locating span w) (Evaluation.locating span x) := by
  intro count hceiling
  have hrun : s.exec (behaviour host) (Evaluation.locating span x count).run = _ :=
    exec_adapt (behaviour host) (fun e => e.located span) (x count) s
  rw [hrun] at hceiling ⊢
  show Option.bind ((w count).run.run s) _ = _
  rw [hx count hceiling]
  rfl

/-! ## What needs no expressions inside -/

variable {nested : Activity → Watching Value}

theorem follows_fresh (frame : Frame) :
    Follows host ceiling s ((fresh frame).watch nested) (fresh frame) := fun _ _ => rfl

theorem follows_settle (span : Span) (r : Except RuntimeCause α) :
    Follows host ceiling s ((settle span r).watch nested) (settle span r) := by
  cases r <;> exact fun _ _ => rfl

theorem follows_mergeSpread (span : Span) (entries : Object Value) (found : Value) :
    Follows host ceiling s ((mergeSpread span entries found).watch nested)
      (mergeSpread span entries found) := by
  cases found <;> exact fun _ _ => rfl

theorem exec_request (left : Nat) (name : String) (count : Nat) (s : Store Suspension) :
    s.exec (behaviour host) ((Activity.request left name).plain host count).run =
      ((s.value (behaviour host) left name).1.map (·, count),
        (s.value (behaviour host) left name).2) :=
  exec_lift (behaviour host) (Attempt.value left name) count s

/-- From now on, requests with no more levels than are left follow. -/
def Answers (host : Host) (ceiling left : Nat) (s : Store Suspension)
    (nested : Activity → Watching Value) : Prop :=
  ∀ l ≤ left, ∀ name s', (stature host).fits s' → (stature host).later s s' →
    Follows host ceiling s' (nested (.request l name)) ((Activity.request l name).plain host)

theorem Answers.later (h : Answers host ceiling left s nested)
    (hlater : (stature host).later s s') :
    Answers host ceiling left s' nested :=
  fun l hl name s'' hs'' hlater' => h l hl name s'' hs'' (later_trans hlater hlater')

/-- A program that only asks with as many levels as there are, and with nothing else inside. -/
theorem watch_of_only {p : Program Suspension Nat α} (hp : p.Only (fun _ => True) (· ≤ left))
    (hs : (stature host).fits s) (hrequest : Answers host ceiling left s nested)
    (hceiling : (s.exec (behaviour host) p).2.height ≤ ceiling) :
    p.watch nested s = some (s.exec (behaviour host) p) := by
  induction p generalizing s with
  | done a => rfl
  | define name body next ih =>
    have hlater := (stature_lasts host).later (precedes_define s name body)
    exact ih _ (hp.2 _) (fits_define hs name body) (hrequest.later hlater) hceiling
  | contains name next ih => exact ih _ (hp _) hs hrequest hceiling
  | value l name next ih =>
    have hasked := hrequest l hp.1 name s hs (later_rfl s) 0
    have hlater := later_exec host (Attempt.value l name) s
    have hfits : (stature host).fits (s.value (behaviour host) l name).2 :=
      ((measured_at host l).value hs trivial).1
    rw [exec_request] at hasked
    change (stature host).later s (s.value (behaviour host) l name).2 at hlater
    rw [exec_value] at hceiling ⊢
    unfold Program.watch
    rw [hasked (Nat.le_trans (height_exec_le _ _ _) hceiling)]
    have hmap : ((s.value (behaviour host) l name).1.map (·, 0)).map (·.1) =
        (s.value (behaviour host) l name).1 := by
      cases (s.value (behaviour host) l name).1 <;> rfl
    show ((next _).watch nested _) = _
    rw [hmap]
    exact ih _ (hp.2 _) hfits (hrequest.later hlater) hceiling

/-! ## Parts of an expression -/

/-- The values that are nested one deeper: of bindings asked for with no more levels, of the
expressions in a list, and of calls. -/
structure Supplies (host : Host) (ceiling left : Nat) (s : Store Suspension)
    (nested : Activity → Watching Value) (frame : Frame) (es : List Expr) : Prop where
  request : Answers host ceiling left s nested
  expression : ∀ e ∈ es, ∀ s', (stature host).fits s' → (stature host).later s s' →
    (stature host).Ready s' frame e →
      Follows host ceiling s' (nested (.expression left frame e))
        (eval host left (innerOf host left) frame e)

variable {frame : Frame} {es : List Expr}

theorem Supplies.later {more : List Expr} (h : Supplies host ceiling left s nested frame es)
    (hlater : (stature host).later s s') (hsub : more ⊆ es) :
    Supplies host ceiling left s' nested frame more where
  request := h.request.later hlater
  expression e he s'' hs'' hlater' := h.expression e (hsub he) s'' hs'' (later_trans hlater hlater')

theorem follows_elements (h : Supplies host ceiling left s nested frame es)
    (hs : (stature host).fits s) (hready : (stature host).ReadyAll s frame es) :
    Follows host ceiling s (Watching.elements nested left frame es)
      (evalList host left (innerOf host left) frame es) := by
  have hlevel := measured_at host left
  induction es generalizing s with
  | nil => exact follows_pure []
  | cons e later ih =>
    obtain ⟨he, hmore⟩ := List.forall_mem_cons.mp hready
    unfold Watching.elements evalList
    refine Follows.bind left (hlevel.eval frame e hs he)
      (h.expression e List.mem_cons_self s hs (later_rfl s) he) ?_
    intro v s' hs' hlater _
    have hmore' := Footing.ReadyAll.later hmore hlater
    refine Follows.bind left (hlevel.evalList frame later hs' hmore')
      (ih (h.later hlater (List.subset_cons_self _ _)) hs' hmore') ?_
    exact fun vs s'' _ _ _ => follows_pure _

/-- A spread, and what is done with the entries then. -/
theorem follows_spread {e : Expr} {g : Object Value → Watching β} {f : Object Value → Evaluation β}
    (h : Supplies host ceiling left s nested frame es) (he : e ∈ es) (hs : (stature host).fits s)
    (hready : (stature host).Ready s frame e) {entries : Object Value}
    (hentries : (stature host).SoundEntries s entries)
    (hrest : ∀ merged s', (stature host).fits s' → (stature host).later s s' →
      (stature host).SoundEntries s' merged → Follows host ceiling s' (g merged) (f merged)) :
    Follows host ceiling s
      (nested (.expression left frame e) >>= fun found =>
        (mergeSpread e.span entries found).watch nested >>= g)
      (eval host left (innerOf host left) frame e >>= fun found =>
        mergeSpread e.span entries found >>= f) := by
  have hlevel := measured_at host left
  refine Follows.bind left (hlevel.eval frame e hs hready)
    (h.expression e he s hs (later_rfl s) hready) ?_
  intro found s' hs' hlater hfound
  have hentries' : (stature host).SoundEntries s' entries := Footing.Upholds.later hentries hlater
  refine Follows.bind left (hlevel.mergeSpread hs' e.span hentries' hfound)
    (follows_mergeSpread e.span entries found) ?_
  exact fun merged s'' hs'' hlater' hmerged =>
    hrest merged s'' hs'' (later_trans hlater hlater') hmerged

theorem follows_members {ms : List Member}
    (h : Supplies host ceiling left s nested frame (ms.map Member.expr))
    (hs : (stature host).fits s) (hready : (stature host).ReadyAll s frame (ms.map Member.expr))
    {entries : Object Value} (hentries : (stature host).SoundEntries s entries) :
    Follows host ceiling s (Watching.members nested left frame entries ms)
      (evalMembers host left (innerOf host left) frame entries ms) := by
  have hlevel := measured_at host left
  induction ms generalizing s entries with
  | nil => exact follows_pure entries
  | cons m later ih =>
    obtain ⟨hm, hmore⟩ := List.forall_mem_cons.mp hready
    cases m with
    | property key e =>
      unfold Watching.members evalMembers
      refine Follows.bind left (hlevel.eval frame e hs hm)
        (h.expression e List.mem_cons_self s hs (later_rfl s) hm) ?_
      intro v s' hs' hlater hv
      have hentries' : (stature host).SoundEntries s' entries :=
        Footing.Upholds.later hentries hlater
      exact ih (h.later hlater (List.subset_cons_self _ _)) hs'
        (Footing.ReadyAll.later hmore hlater)
        (hentries'.insert hv key)
    | spread e =>
      unfold Watching.members evalMembers
      apply follows_spread h List.mem_cons_self hs hm hentries
      intro merged s' hs' hlater hmerged
      exact ih (h.later hlater (List.subset_cons_self _ _)) hs'
        (Footing.ReadyAll.later hmore hlater)
        hmerged

theorem follows_properties {ms : List Member} {path : String}
    (h : Supplies host ceiling left s nested frame (ms.map Member.expr))
    (hs : (stature host).fits s) (hready : (stature host).ReadyAll s frame (ms.map Member.expr))
    {entries : Object Value} (hentries : (stature host).SoundEntries s entries) :
    Follows host ceiling s (Watching.properties nested left frame path entries ms)
      (forceMembers host left (innerOf host left) frame path entries ms) := by
  have hlevel := measured_at host left
  induction ms generalizing s entries with
  | nil => exact follows_pure entries
  | cons m later ih =>
    obtain ⟨hm, hmore⟩ := List.forall_mem_cons.mp hready
    cases m with
    | property key e =>
      unfold Watching.properties forceMembers
      refine Follows.bind left (hlevel.lift hs (hlevel.value hs trivial))
        (h.request left (Nat.le_refl left) (childPath path key) s hs (later_rfl s)) ?_
      intro v s' hs' hlater hv
      have hentries' : (stature host).SoundEntries s' entries :=
        Footing.Upholds.later hentries hlater
      exact ih (h.later hlater (List.subset_cons_self _ _)) hs'
        (Footing.ReadyAll.later hmore hlater)
        (hentries'.insert hv key)
    | spread e =>
      unfold Watching.properties forceMembers
      apply follows_spread h List.mem_cons_self hs hm hentries
      intro merged s' hs' hlater hmerged
      exact ih (h.later hlater (List.subset_cons_self _ _)) hs'
        (Footing.ReadyAll.later hmore hlater)
        hmerged

/-! ## Expressions -/

/-- Evaluation asks for values with no more levels than it has. -/
theorem asks_within (host : Host) (left : Nat) :
    HoldsAt (fun _ x _ => Attempt.Only (fun _ => True) (· ≤ left) x) host host left left :=
  only_at (fun _ _ _ _ => trivial) fun _ hl => hl

/-- With what it evaluates directly inside, and the calls it makes, an expression follows. -/
theorem follows_expression {e : Expr}
    (h : Supplies host ceiling left s nested frame e.children)
    (hcall : ∀ span callee args, e = .call span callee args → ∀ f values s',
      (stature host).fits s' → (stature host).later s s' → (stature host).Upholds s' f.closures →
        (stature host).SoundItems s' values →
          Follows host ceiling s' (nested (.call left frame f values))
            (applyFunction host left (innerOf host left) frame f values))
    (hs : (stature host).fits s) (hready : (stature host).Ready s frame e) :
    Follows host ceiling s (Watching.expression nested host left frame e)
      (eval host left (innerOf host left) frame e) := by
  have hlevel := measured_at host left
  have hchild : (stature host).ReadyAll s frame e.children := fun inside hmem =>
    ⟨(stature host).place_child hready.place hmem, hready.env⟩
  have hleaf : Follows host ceiling s ((eval host left (innerOf host left) frame e).watch nested)
      (eval host left (innerOf host left) frame e) := fun count hceiling =>
    watch_of_only ((asks_within host left).eval frame e count) hs h.request hceiling
  cases e with
  | number span text | string span text | boolean span b | null span | blob span form text
  | identifier span name | relative span level name | lambda span params body => exact hleaf
  | array span elements =>
    unfold Watching.expression eval
    refine Follows.bind left (hlevel.evalList frame elements hs hchild)
      (follows_elements h hs hchild) ?_
    intro items s' hs' _ _
    refine Follows.bind left (hlevel.fresh hs' frame) (follows_fresh frame) ?_
    exact fun id s'' _ _ _ => follows_pure _
  | object span members =>
    unfold Watching.expression eval
    refine Follows.bind left (hlevel.evalMembers frame members hs hchild Footing.soundEntries_nil)
      (follows_members h hs hchild Footing.soundEntries_nil) ?_
    intro entries s' hs' _ _
    refine Follows.bind left (hlevel.fresh hs' frame) (follows_fresh frame) ?_
    exact fun id s'' _ _ _ => follows_pure _
  | call span callee args =>
    unfold Watching.expression eval
    obtain ⟨hcallee, hargs⟩ := List.forall_mem_cons.mp hchild
    refine Follows.bind left (hlevel.eval frame callee hs hcallee)
      (h.expression callee List.mem_cons_self s hs (later_rfl s) hcallee) ?_
    intro found s' hs' hlater hfound
    cases found with
    | function id f =>
      have hargs' := Footing.ReadyAll.later hargs hlater
      refine Follows.bind left (hlevel.evalList frame args hs' hargs')
        (follows_elements (h.later hlater (List.subset_cons_self _ _)) hs' hargs') ?_
      intro values s'' hs'' hlater' hvalues
      apply Follows.locating
      exact hcall span callee args rfl f values s'' hs'' (later_trans hlater hlater')
        (Footing.Upholds.later hfound hlater') hvalues
    | _ => exact fun _ _ => rfl
  | binary span op l r =>
    unfold Watching.expression eval
    obtain ⟨hl, hr⟩ := List.forall_mem_cons.mp hchild
    refine Follows.bind left (hlevel.eval frame l hs hl)
      (h.expression l List.mem_cons_self s hs (later_rfl s) hl) ?_
    intro a s' hs' hlater _
    by_cases hdecided : op.decidedBy a = true
    · simp only [if_pos hdecided]
      exact follows_pure a
    · simp only [if_neg hdecided]
      have hr' := (hr r List.mem_cons_self).later hlater
      refine Follows.bind left (hlevel.eval frame r hs' hr')
        (h.expression r (List.mem_cons_of_mem _ List.mem_cons_self) s' hs' hlater hr') ?_
      intro b s'' hs'' _ _
      refine Follows.bind left (hlevel.fresh hs'' frame) (follows_fresh frame) ?_
      exact fun id t _ _ _ => follows_settle span _
  | unary span op operand =>
    unfold Watching.expression eval
    obtain ⟨hoperand, _⟩ := List.forall_mem_cons.mp hchild
    refine Follows.bind left (hlevel.eval frame operand hs hoperand)
      (h.expression operand List.mem_cons_self s hs (later_rfl s) hoperand) ?_
    exact fun a s' _ _ _ => follows_settle span _

/-! ## Bindings and calls -/

theorem follows_body {b : Suspension}
    (h : Supplies host ceiling left s nested ⟨b.path, b.scopes, []⟩ b.task.expressions)
    (hs : (stature host).fits s)
    (hready : (stature host).ReadyAll s ⟨b.path, b.scopes, []⟩ b.task.expressions) :
    Follows host ceiling s (Watching.body nested left b)
      (evalTask host left (innerOf host left) b) := by
  have hlevel := measured_at host left
  unfold Watching.body evalTask
  cases htask : b.task with
  | expression e =>
    rw [htask] at h hready
    exact h.expression e List.mem_cons_self s hs (later_rfl s) (hready e List.mem_cons_self)
  | members ms =>
    rw [htask] at h hready
    refine Follows.bind left
      (hlevel.forceMembers hs hready.spreads (fun _ _ _ => trivial) Footing.soundEntries_nil)
      (follows_properties h hs hready Footing.soundEntries_nil) ?_
    intro entries s' hs' _ _
    refine Follows.bind left (hlevel.fresh hs' _) (follows_fresh _) ?_
    exact fun id s'' _ _ _ => follows_pure _

/-- A function that is called follows if requests do, and the body of a lambda one level further
in. -/
theorem follows_call {f : Function} {args : List Value} (hs : (stature host).fits s)
    (hrequest : Answers host ceiling left s nested)
    (hbody : ∀ params body scopes env, f = .lambda params body scopes env →
      args.length = params.length → ∀ l, left = l + 1 → Follows host ceiling s
        (nested (.expression l ⟨frame.owner, scopes, params.zip args ++ env⟩ body))
        (eval host l (innerOf host l) ⟨frame.owner, scopes, params.zip args ++ env⟩ body)) :
    Follows host ceiling s (Watching.call nested host left frame f args)
      (applyFunction host left (innerOf host left) frame f args) := by
  unfold Watching.call applyFunction
  cases f with
  | host name => exact fun _ _ => rfl
  | builtin b =>
    exact fun count hceiling => watch_of_only
      ((asks_within host left).applyFunction frame (.builtin b) args count) hs hrequest hceiling
  | lambda params body scopes env =>
    dsimp only
    by_cases hlength : args.length ≠ params.length
    · simp only [if_pos hlength]
      exact fun _ _ => rfl
    · simp only [if_neg hlength]
      cases left with
      | zero => exact fun _ _ => rfl
      | succ l =>
        show Follows host ceiling s _ (evaluator host l _ body)
        rw [evaluator_eq]
        exact hbody params body scopes env rfl (Decidable.of_not_not hlength) l rfl

theorem exec_body (b : Suspension) (left : Nat) (s : Store Suspension) :
    s.exec (behaviour host) (behaviour host b left) =
      let out := s.exec (behaviour host) ((Activity.body left b).plain host 0).run
      (out.1.map (·.1), out.2) := by
  cases left with
  | zero => rfl
  | succ left => exact exec_body_succ s b left

/-- A request follows if the body does that it runs. -/
theorem follows_request {name : String}
    (hbody : ∀ b, s.reply name = .run b → Follows host ceiling (s.start name)
      (nested (.body left b)) ((Activity.body left b).plain host)) :
    Follows host ceiling s (Watching.request nested left name)
      ((Activity.request left name).plain host) := by
  intro count hceiling
  rw [exec_request] at hceiling ⊢
  cases hr : s.reply name with
  | now r =>
    rw [value_of_now _ hr]
    simp only [Watching.request, ExceptT.run_mk, StateT.run, hr]
  | run b =>
    rw [value_of_run _ hr, exec_body] at hceiling ⊢
    simp only [Watching.request, ExceptT.run_mk, StateT.run, hr]
    have hb := hbody b hr 0
    generalize (s.start name).exec (behaviour host) ((Activity.body left b).plain host 0).run = out
      at hb hceiling ⊢
    obtain ⟨r, s'⟩ := out
    rw [height_finish] at hceiling
    have hw : (nested (.body left b) 0).run (s.start name) = some (r, s') := hb hceiling
    rw [hw]
    rfl

/-! ## The measure -/

theorem measure_lt {a a' : Activity} (hsteps : s'.stepsLeft ≤ s.stepsLeft)
    (h : a'.left < a.left ∨ a'.left = a.left ∧ a'.size < a.size) :
    a'.measure s' < a.measure s := by
  unfold Activity.measure
  rw [Prod.Lex.toLex_lt_toLex]
  rcases Nat.lt_or_eq_of_le hsteps with hlt | heq
  · exact Or.inl hlt
  · refine Or.inr ⟨heq, ?_⟩
    rw [Prod.Lex.toLex_lt_toLex]
    exact h

theorem measure_start_lt {a : Activity} {name : String} {b : Suspension}
    (h : s.reply name = .run b) (a' : Activity) : a'.measure (s.start name) < a.measure s := by
  obtain ⟨_, _, _, _, hsteps⟩ := reply_eq_run.mp h
  have hlt : (s.start name).stepsLeft < s.stepsLeft :=
    Nat.sub_lt (Nat.pos_of_ne_zero hsteps) Nat.one_pos
  unfold Activity.measure
  rw [Prod.Lex.toLex_lt_toLex]
  exact Or.inl hlt

/-! ## Room -/

/-- How many activities may be under way before the next level is taken. -/
def capacity (host : Host) (left height : Nat) : Nat :=
  (host.maxDepth - left + 1) * (height + 3)

theorem capacity_mono (host : Host) {height height' : Nat} (h : height ≤ height') (left : Nat) :
    capacity host left height ≤ capacity host left height' :=
  Nat.mul_le_mul_left _ (Nat.add_le_add_right h 3)

theorem capacity_anti {l : Nat} (h : l ≤ left) (height : Nat) :
    capacity host left height ≤ capacity host l height :=
  Nat.mul_le_mul_right _ (by omega)

/-- A level has room for the tallest expression and three activities more. -/
theorem capacity_succ (h : left + 1 ≤ host.maxDepth) (height : Nat) :
    capacity host left height = capacity host (left + 1) height + (height + 3) := by
  have hlevels : host.maxDepth - left + 1 = host.maxDepth - (left + 1) + 1 + 1 := by omega
  rw [capacity, hlevels, Nat.succ_mul, capacity]

namespace Activity

/-- How many activities it may come to, itself included, before the next level is taken. -/
def need : Activity → Nat
  | request _ _ => 2
  | body _ _ => 1
  | expression _ _ e => e.height + 3
  | call _ _ _ _ => 3

/-- What it evaluates is no taller than the documents that are loaded. -/
def Ready (host : Host) (s : Store Suspension) : Activity → Prop
  | request _ _ => True
  | body _ b => ∀ e ∈ b.task.expressions, e.height ≤ s.height
  | expression _ frame e => (stature host).Ready s frame e
  | call _ _ f args => (stature host).Upholds s f.closures ∧ (stature host).SoundItems s args

/-- It can be done inside of others: it is ready, and there are levels and room. -/
structure Admitted (host : Host) (s : Store Suspension) (depth : Nat) (a : Activity) : Prop where
  ready : a.Ready host s
  levels : a.left ≤ host.maxDepth
  room : depth + a.need ≤ capacity host a.left s.height

end Activity

/-! ## Layers -/

section

variable {a : Activity} {depth : Nat}

/-- The next level is taken. -/
theorem room_inside (h : depth ≤ capacity host (left + 1) s.height)
    (hleft : left + 1 ≤ host.maxDepth) (hlater : (stature host).later s s') {e : Expr}
    (he : e.height ≤ s'.height) :
    depth + (e.height + 3) ≤ capacity host left s'.height := by
  have hmono := capacity_mono host hlater.1 (left + 1)
  have hsucc := capacity_succ hleft s'.height
  omega

variable (hnested : ∀ a' s', (stature host).fits s' → a'.Admitted host s' (depth + 1) →
  a'.measure s' < a.measure s → Follows host ceiling s' (nested a') (a'.plain host))

include hnested

/-- Requests with no more levels than are left. -/
theorem answers_nested (hlevels : left ≤ host.maxDepth)
    (hroom : depth + 3 ≤ capacity host left s.height)
    (hless : ∀ l ≤ left, l < a.left ∨ l = a.left ∧ 0 < a.size) :
    Answers host ceiling left s nested := by
  intro l hl name s' hs' hlater
  have hroom' := Nat.le_trans hroom (Nat.le_trans (capacity_mono host hlater.1 left)
    (capacity_anti hl s'.height))
  have hmeasure : (Activity.request l name).measure s' < a.measure s :=
    measure_lt hlater.2 (hless l hl)
  refine hnested _ s' hs' ⟨trivial, Nat.le_trans hl hlevels, ?_⟩ hmeasure
  show depth + 1 + 2 ≤ capacity host l s'.height
  omega

end

/-- One layer of the evaluator follows, if the activities nested in it do. -/
theorem follows_layer {a : Activity} {depth : Nat} (hs : (stature host).fits s)
    (ha : a.Admitted host s depth)
    (hnested : ∀ a' s', (stature host).fits s' → a'.Admitted host s' (depth + 1) →
      a'.measure s' < a.measure s → Follows host ceiling s' (nested a') (a'.plain host)) :
    Follows host ceiling s (Watching.layer nested host a) (a.plain host) := by
  obtain ⟨hready, hlevels, hroom⟩ := ha
  cases a with
  | request left name =>
    refine follows_request fun b hr => ?_
    have hheight : ∀ e ∈ b.task.expressions, e.height ≤ (s.start name).height := fun e he =>
      height_start s name ▸
        Nat.le_trans (Task.height_le_of_mem he) (height_le_of_body? (body?_of_reply hr))
    refine hnested (.body left b) _ ((stature_lasts host).fits_start hs name) ⟨hheight, hlevels, ?_⟩
      (measure_start_lt hr _)
    rw [height_start]
    exact hroom
  | body left b =>
    cases left with
    | zero => exact follows_throw _
    | succ left =>
      have hleft : left ≤ host.maxDepth := Nat.le_of_succ_le hlevels
      have hroom' : depth + 3 ≤ capacity host left s.height := by
        have hsucc := capacity_succ hlevels s.height
        change depth + 1 ≤ capacity host (left + 1) s.height at hroom
        omega
      refine follows_body ⟨?_, ?_⟩ hs fun e he => ⟨hready e he, Footing.soundEntries_nil⟩
      · exact answers_nested hnested hleft hroom' fun l hl => Or.inl (Nat.lt_succ_of_le hl)
      · intro e he s' hs' hlater hready'
        refine hnested (.expression left _ e) s' hs' ⟨hready', hleft, ?_⟩ ?_
        · exact room_inside hroom hlevels hlater hready'.place
        · exact measure_lt hlater.2 (Or.inl (Nat.lt_succ_self left))
  | expression left frame e =>
    have hsize := e.weight_pos (· + ·)
    have hheight := e.weight_pos max
    change depth + (e.height + 3) ≤ capacity host left s.height at hroom
    refine follows_expression ⟨?_, ?_⟩ ?_ hs hready
    · refine answers_nested hnested hlevels (by omega) fun l hl => ?_
      exact (Nat.lt_or_eq_of_le hl).imp_right fun heq => ⟨heq, hsize⟩
    · intro inside hinside s' hs' hlater hready'
      have hmono := capacity_mono host hlater.1 left
      have hless := Expr.height_lt_of_child hinside
      refine hnested (.expression left frame inside) s' hs' ⟨hready', hlevels, ?_⟩ ?_
      · show depth + 1 + (inside.height + 3) ≤ _
        exact Nat.le_trans (by omega) hmono
      · exact measure_lt hlater.2 (Or.inr ⟨rfl, Expr.size_lt_of_child hinside⟩)
    · rintro span callee args rfl f values s' hs' hlater hf hvalues
      have hmono := capacity_mono host hlater.1 left
      have hcallee : callee.size < (Expr.call span callee args).size :=
        Expr.size_lt_of_child List.mem_cons_self
      have hpos : 0 < callee.size := callee.weight_pos _
      refine hnested (.call left frame f values) s' hs' ⟨⟨hf, hvalues⟩, hlevels, ?_⟩ ?_
      · show depth + 1 + 3 ≤ _
        have hheight' : 0 < (Expr.call span callee args).height := hheight
        exact Nat.le_trans (by omega) hmono
      · exact measure_lt hlater.2
          (Or.inr ⟨rfl, show 1 < (Expr.call span callee args).size by omega⟩)
  | call left frame f args =>
    obtain ⟨hf, hargs⟩ := hready
    refine follows_call hs ?_ ?_
    · refine answers_nested hnested hlevels hroom fun l hl => ?_
      exact (Nat.lt_or_eq_of_le hl).imp_right fun heq => ⟨heq, Nat.one_pos⟩
    · rintro params body scopes env rfl harity l rfl
      have hready' := Footing.ready_body frame.owner harity hf hargs
      refine hnested (.expression l _ body) s hs ⟨hready', Nat.le_of_succ_le hlevels, ?_⟩ ?_
      · change depth + 3 ≤ capacity host (l + 1) s.height at hroom
        exact room_inside (Nat.le_trans (by omega) hroom) hlevels (later_rfl s) hready'.place
      · exact measure_lt (Nat.le_refl _) (Or.inl (Nat.lt_succ_self l))

/-! ## The evaluator -/

theorem capacity_le (left height : Nat) :
    capacity host left height ≤ (host.maxDepth + 1) * (height + 3) :=
  Nat.mul_le_mul_right _ (by omega)

/-- An activity that is admitted inside of larger ones follows, with fuel for what the documents
loaded at the end allow. -/
theorem follows_evaluate {a : Activity} {around : List Measure} {fuel : Nat}
    (hs : (stature host).fits s) (ha : a.Admitted host s around.length)
    (hdescends : (a.measure s :: around).IsChain (· < ·))
    (hfuel : (host.maxDepth + 1) * (ceiling + 3) ≤ fuel + around.length) :
    Follows host ceiling s (Watching.evaluate host fuel around a) (a.plain host) := by
  -- Induction on the measure, which is smaller for all that is nested.
  induction hm : a.measure s using WellFoundedLT.induction generalizing a around fuel s with
  | ind m ih =>
    intro count hceiling
    have hshallow : around.length + 1 ≤ (host.maxDepth + 1) * (s.height + 3) := by
      have hneed : 1 ≤ a.need := by cases a <;> simp [Activity.need]
      have hroom := Nat.le_trans ha.room (capacity_le a.left s.height)
      omega
    have hheight : (host.maxDepth + 1) * (s.height + 3) ≤ (host.maxDepth + 1) * (ceiling + 3) :=
      Nat.mul_le_mul_left _ (Nat.add_le_add_right (Nat.le_trans (height_exec_le _ _ s) hceiling) 3)
    obtain ⟨fuel, rfl⟩ : ∃ n, fuel = n + 1 := ⟨fuel - 1, by omega⟩
    have hmoderate : Moderate host s (a.measure s :: around) := ⟨hdescends, hshallow⟩
    show (if Moderate host s (a.measure s :: around) then _ else none) = _
    rw [if_pos hmoderate]
    refine follows_layer hs ha (fun a' s' hs' ha' hless => ?_) count hceiling
    refine ih (a'.measure s') (hm ▸ hless) hs' ha' ?_ ?_ rfl
    · exact List.isChain_cons_cons.mpr ⟨hless, hdescends⟩
    · rw [List.length_cons]
      omega

end LazyConfig
