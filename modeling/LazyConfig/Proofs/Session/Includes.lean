-- Files that are included or loaded in a session. A file is hermetic: it has a value or none,
-- whoever includes it and whatever was loaded, requested and kept before. It is shared: whoever
-- obtains the value of a file by any path to it, all others obtain the same one from then on, which
-- is kept.
-- Main statement: a call of the builtin includes the file at its path, and files are hermetic and
-- shared, in all calls of a session.
import LazyConfig.Proofs.Document.Hermetic
import LazyConfig.Proofs.Document.Stages
import LazyConfig.Proofs.Session.Calls
import LazyConfig.Proofs.Session.Requests

namespace LazyConfig

open Store Evaluation

/-! ## The value of a file -/

/-- Includes a file, as documents do. -/
def Attempt.valueOfFile (host : Host) (left : Nat) (path : String) : Attempt Value :=
  applyBuiltin host left .document [.string path]

theorem exec_valueOfFile (host : Host) (left : Nat) (path : String) (s : Store Suspension) :
    s.exec (behaviour host) (Attempt.valueOfFile host left path).run =
      match s.exec (behaviour host) (Attempt.loadFile host path).run with
      | (.ok name, s') => s'.value (behaviour host) left name
      | (.error e, s') => (.error e, s') := by
  show s.exec (behaviour host) (Attempt.loadFile host path >>= Attempt.value left).run = _
  rw [exec_run_bind]
  rcases s.exec (behaviour host) (Attempt.loadFile host path).run with ⟨r, s'⟩
  cases r <;> rfl

namespace Session

/-- Loads a file, and asks for the value of the name that is the answer. -/
def valueOfFile (s : Session) (path : String) : Except Failure Value × Session :=
  match s.loadFile path with
  | (.ok name, s') => s'.request name
  | (.error f, s') => (.error f, s')

/-- A client that does so does what documents do. -/
theorem valueOfFile_eq (s : Session) (path : String) :
    s.valueOfFile path =
      let out := s.store.exec (behaviour s.host)
        (Attempt.valueOfFile s.host s.host.maxDepth path).run
      (out.1.mapError .evaluation, { s with store := out.2 }) := by
  unfold valueOfFile loadFile attempt
  rw [exec_valueOfFile]
  rcases s.store.exec (behaviour s.host) (Attempt.loadFile s.host path).run with ⟨r, s'⟩
  cases r <;> rfl

/-! ## The client of a session -/

/-- What a call does to the store. -/
def Call.program (host : Host) : Call → Program Suspension Nat Unit
  | .loadSource name bytes =>
    match parse host.maxParseDepth bytes with
    | .error _ => .done ()
    | .ok root => (Attempt.loadDocument name root).run.bind fun _ => .done ()
  | .loadFile path => (Attempt.loadFile host path).run.bind fun _ => .done ()
  | .value path => .value host.maxDepth path fun _ => .done ()

/-- A client that makes the calls, whatever they end with. -/
def client (host : Host) : List Call → Program Suspension Nat (Except EvalError Value)
  | [] => .done (.ok .null)
  | c :: later => (c.program host).bind fun _ => client host later

theorem exec_program (s : Session) (c : Call) :
    (s.store.exec (behaviour s.host) (c.program s.host)).2 = (s.call c).2.store := by
  cases c with
  | loadSource name bytes =>
    rw [call_loadSource, Call.program]
    cases parse s.host.maxParseDepth bytes with
    | error e => rfl
    | ok root => dsimp only; rw [exec_bind]; rfl
  | loadFile path =>
    rw [call_loadFile, Call.program, exec_bind]
    rfl
  | value path => rfl

theorem host_call (s : Session) (c : Call) : (s.call c).2.host = s.host := by
  cases c with
  | loadSource name bytes => exact host_loadSource s name bytes
  | loadFile path => rfl
  | value path => rfl

theorem host_perform (s : Session) (calls : List Call) : (s.perform calls).host = s.host :=
  perform_keeps (P := fun s' => s'.host = s.host) (fun c _ s' hs' => (host_call s' c).trans hs') rfl

/-- The client leaves the store as the calls do. -/
theorem exec_client (s : Session) (calls : List Call) :
    (s.store.exec (behaviour s.host) (client s.host calls)).2 = (s.perform calls).store := by
  induction calls generalizing s with
  | nil => rfl
  | cons c later ih =>
    rw [client, exec_bind, perform, ← ih (s.call c).2, host_call, ← exec_program]

end Session

theorem Session.idle_perform (host : Host) (limits : Limits) (calls : List Session.Call) :
    Disciplined ((Session.new host limits).perform calls).store [] ∧
      Tidy ((Session.new host limits).perform calls).store := by
  rw [← Session.exec_client]
  exact ⟨(disciplined_exec _ (Session.client host calls) (disciplined_empty limits)).1,
    tidy_exec _ (Session.client host calls) (tidy_empty limits)⟩

/-! ## Inclusions -/

/-- A moment of a session at which a file is included: in any body, in any of the calls. -/
structure Inclusion (host : Host) (limits : Limits) (calls : List Session.Call) where
  log : List String
  moment : Moment Suspension Nat
  left : Nat
  path : String
  next : Except EvalError Value → Program Suspension Nat (Except EvalError Value)
  run : Run (behaviour host) (.initial limits (Session.client host calls)) log moment
  control : moment.program = (Attempt.valueOfFile host left path).run.bind next

namespace Inclusion

variable {host : Host} {limits : Limits} {calls : List Session.Call}

/-- What the inclusion results in, and the store after it. -/
def outcome (i : Inclusion host limits calls) : Except EvalError Value × Store Suspension :=
  i.moment.store.exec (behaviour host) (Attempt.valueOfFile host i.left i.path).run

/-- The moment after the inclusion. -/
def after (i : Inclusion host limits calls) : Moment Suspension Nat :=
  ⟨i.next i.outcome.1, i.moment.calls, i.outcome.2⟩

theorem run_after (i : Inclusion host limits calls) :
    ∃ log, Run (behaviour host) (.initial limits (Session.client host calls)) log i.after := by
  obtain ⟨log, hrun⟩ := run_exec_bind (behaviour host) (Attempt.valueOfFile host i.left i.path).run
    i.moment.store i.next i.moment.calls
  rw [← i.control] at hrun
  exact ⟨_, i.run.trans hrun⟩

end Inclusion

/-! ## Calls of the builtin -/

/-- A moment of a session at which a call is evaluated that includes a file: the value of what is
called is the builtin, and the value of its one argument is a path. -/
structure IncludeCall (host : Host) (limits : Limits) (calls : List Session.Call) where
  log : List String
  moment : Moment Suspension Nat
  left : Nat
  inner : Inner
  frame : Frame
  span : Span
  callee : Expr
  args : List Expr
  made : Nat
  next : Except EvalError (Value × Nat) → Program Suspension Nat (Except EvalError Value)
  run : Run (behaviour host) (.initial limits (Session.client host calls)) log moment
  control : moment.program =
    (eval host left inner frame (.call span callee args) made).run.bind next
  id : Identity
  path : String
  called : Stage
  given : Stage
  calls_builtin : Succeeds host (eval host left inner frame callee) ⟨moment.store, made⟩
    (.function id (.builtin .document)) called
  gives_path : Succeeds host (evalList host left inner frame args) called [.string path] given

/-- What the call results in, and the store after it. -/
def IncludeCall.outcome {host : Host} {limits : Limits} {calls : List Session.Call}
    (c : IncludeCall host limits calls) : Except EvalError (Value × Nat) × Store Suspension :=
  c.moment.store.exec (behaviour host)
    (eval host c.left c.inner c.frame (.call c.span c.callee c.args) c.made).run

section

variable {host : Host}

/-- An evaluation that goes on after another one comes to control when that one has succeeded. -/
theorem run_of_succeeds {α β : Type} {x : Evaluation α} {f : α → Evaluation β} {a : α}
    {p p' : Stage} (h : Succeeds host x p a p')
    (next : Except EvalError (β × Nat) → Program Suspension Nat (Except EvalError Value))
    (calls : List (Store.Call Suspension Nat)) :
    ∃ log, Run (behaviour host) ⟨((x >>= f) p.made).run.bind next, calls, p.store⟩ log
      ⟨(f a p'.made).run.bind next, calls, p'.store⟩ := by
  have hprogram : ((x >>= f) p.made).run =
      Program.bind (ExceptT.bindCont fun found => f found.1 found.2) (x p.made).run := rfl
  obtain ⟨log, hrun⟩ := run_exec_bind (behaviour host) (x p.made).run p.store
    (fun r => Program.bind next (ExceptT.bindCont (fun found => f found.1 found.2) r)) calls
  unfold Succeeds at h
  rw [h] at hrun
  rw [hprogram, Program.bind_bind]
  exact ⟨log, hrun⟩

/-- A call of the builtin includes a file, and goes on with what the inclusion results in. -/
theorem bind_locating_include {α : Type} (host : Host) (left : Nat) (inner : Inner) (frame : Frame)
    (span : Span) (path : String) (count : Nat)
    (next : Except EvalError (Value × Nat) → Program Suspension Nat α) :
    Program.bind next (locating span
      (applyFunction host left inner frame (.builtin .document) [.string path]) count).run =
        (Attempt.valueOfFile host left path).run.bind fun r =>
          next ((r.map (·, count)).mapError fun e => e.located span) := by
  have hcall : (applyFunction host left inner frame (.builtin .document) [.string path] count).run =
      Program.bind (ExceptT.bindCont fun v => pure (v, count))
        (Attempt.valueOfFile host left path).run := rfl
  have hplace : (locating span
      (applyFunction host left inner frame (.builtin .document) [.string path]) count).run =
      Program.bind (fun r => .done (r.mapError fun e => e.located span))
        (applyFunction host left inner frame (.builtin .document) [.string path] count).run := rfl
  rw [hplace, hcall, Program.bind_bind, Program.bind_bind]
  congr 1
  funext r
  cases r <;> rfl

variable {limits : Limits} {calls : List Session.Call}

/-- So it is an inclusion, and has its value or, at the place of the call, its error. -/
theorem IncludeCall.exists_inclusion (c : IncludeCall host limits calls) :
    ∃ i : Inclusion host limits calls, i.path = c.path ∧ i.left = c.left ∧
      i.moment.store = c.given.store ∧ c.outcome =
        ((i.outcome.1.map (·, c.given.made)).mapError fun e => e.located c.span, i.outcome.2) := by
  obtain ⟨log, ⟨program, waiting, store⟩, left, inner, frame, span, callee, args, made, next,
    hrun, hcontrol, id, path, called, given, hcallee, hargs⟩ := c
  cases hcontrol
  -- Once the callee and the argument are evaluated, what is left of the call is the inclusion.
  have hinclude := fun {α : Type} =>
    bind_locating_include (α := α) host left inner frame span path given.made
  have hcalled : ∃ log, Run (behaviour host)
      ⟨(eval host left inner frame (.call span callee args) made).run.bind next, waiting, store⟩ log
      ⟨((evalList host left inner frame args >>= fun values => locating span
          (applyFunction host left inner frame (.builtin .document) values)) called.made).run.bind
        next, waiting, called.store⟩ := by
    rw [eval]
    exact run_of_succeeds hcallee next waiting
  obtain ⟨log₁, hcalled⟩ := hcalled
  obtain ⟨log₂, hgiven⟩ := run_of_succeeds (f := fun values => locating span
    (applyFunction host left inner frame (.builtin .document) values)) hargs next waiting
  refine ⟨⟨_, _, left, path, _, (hrun.trans hcalled).trans hgiven, hinclude next⟩,
    rfl, rfl, rfl, ?_⟩
  unfold outcome Inclusion.outcome eval
  dsimp only
  unfold Succeeds at hcallee hargs
  rw [exec_evaluation_bind, hcallee]
  dsimp only
  rw [exec_evaluation_bind, hargs]
  dsimp only
  rw [← Program.bind_done (locating _ _ _).run, hinclude, exec_bind]
  rfl

end

/-- The value of the file is kept. Whoever includes or loads the file obtains it, and leaves the
store as it is. All paths of the document are bound, each once. -/
structure Shared (host : Host) (s : Store Suspension) (bytes : Bytes) (v : Value) : Prop where
  kept : s.state? (host.contentName bytes) = some (.evaluated v)
  included {path : String} : host.storage.readBytes path = .ok bytes → ∀ left,
    s.exec (behaviour host) (Attempt.valueOfFile host left path).run = (.ok v, s)
  requested {path : String} : host.storage.readBytes path = .ok bytes →
    (Session.mk host s).valueOfFile path = (.ok v, ⟨host, s⟩)
  registered : ∃ root, parse host.maxParseDepth bytes = .ok root ∧
    ∀ path ∈ root.declared (host.contentName bytes), s.names.count path = 1

variable {host : Host} {s : Store Suspension} {bytes : Bytes} {v : Value}

theorem shared_of_kept (htidy : Tidy s)
    (hkept : s.state? (host.contentName bytes) = some (.evaluated v))
    (hwhole : ∃ root, parse host.maxParseDepth bytes = .ok root ∧
      ∀ path ∈ root.declared (host.contentName bytes), s.contains path = true) :
    Shared host s bytes v := by
  have hname : s.contains (host.contentName bytes) = true := by
    obtain ⟨b, hb, _⟩ := find?_of_state? hkept
    rw [contains_eq, hb]
    rfl
  have hincluded : ∀ {path}, host.storage.readBytes path = .ok bytes → ∀ left,
      s.exec (behaviour host) (Attempt.valueOfFile host left path).run = (.ok v, s) := by
    intro path hread left
    rw [exec_valueOfFile, loadFile_eq, hread]
    dsimp only
    rw [exec_run_bind, exec_loadContent, if_pos hname]
    exact value_of_now _ (reply_evaluated hkept) left
  refine ⟨hkept, hincluded, fun {path} hread => ?_, ?_⟩
  · rw [Session.valueOfFile_eq, hincluded hread]
    rfl
  · obtain ⟨root, hparse, hall⟩ := hwhole
    refine ⟨root, hparse, fun path hpath => ?_⟩
    exact List.count_eq_one_of_mem htidy.nodup ((htidy.mem_iff path).mpr (hall path hpath))

namespace Library

variable {L : Library} {path : String}

/-! ## The client keeps the contract -/

theorem honors_program (hs : L.Filed s) {c : Session.Call}
    (hnames : ∀ name, c.LoadsAs name → L.host.Spares name) :
    L.contract.Honors (fun _ => True) (fun s' _ => L.Filed s') (c.program L.host) s := by
  cases c with
  | loadSource name bytes =>
    rw [Session.Call.program]
    cases parse L.host.maxParseDepth bytes with
    | error e => exact hs
    | ok root =>
      apply Contract.honors_bind.mpr
      apply honors_loadDocument hs
      cases firstTaken s.contains [] ((documentBindings name root).map (·.path)) with
      | some path => exact hs
      | none =>
        apply hs.addApart
        rintro b hb ⟨bytes', hread, hbelow⟩
        exact (hnames name ⟨bytes, rfl⟩).below (within_documentBindings hb).path bytes' hread hbelow
  | loadFile path =>
    apply (honors_loadFile _ hs path).bind
    exact fun s' r _ hr => hr.1
  | value path => exact ⟨hs, trivial, fun _ _ _ hs' _ => hs'⟩

theorem honors_client (hs : L.Filed s) {calls : List Session.Call}
    (hnames : ∀ c ∈ calls, ∀ name, c.LoadsAs name → L.host.Spares name) :
    L.contract.Honors (L.contract.asks none) (L.contract.ends none)
      (Session.client L.host calls) s := by
  induction calls generalizing s with
  | nil => exact hs
  | cons c later ih =>
    obtain ⟨hc, hlater⟩ := List.forall_mem_cons.mp hnames
    exact (honors_program hs hc).bind fun s' _ _ hs' => ih hs' hlater

/-! ## Inclusions by the contract -/

/-- By itself, the file has the value. -/
def Gives (L : Library) (path : String) (v : Value) : Prop :=
  ∃ bytes, L.host.storage.readBytes path = .ok bytes ∧ L.Yields (L.host.contentName bytes) v

theorem Gives.unique {v' : Value} (h : L.Gives path v) (h' : L.Gives path v') : v = v' := by
  obtain ⟨bytes, hread, hv⟩ := h
  obtain ⟨bytes', hread', hv'⟩ := h'
  rw [hread, Except.ok.injEq] at hread'
  subst hread'
  exact hv.unique hv'

/-- A file is loaded under the name of its contents. -/
theorem given_loadFile_ok {ask : String → Except EvalError Value} {name : String}
    (h : L.given ask (Attempt.loadFile L.host path) = .ok name) :
    ∃ bytes, L.host.storage.readBytes path = .ok bytes ∧ name = L.host.contentName bytes := by
  rw [loadFile_eq] at h
  cases hread : L.host.storage.readBytes path with
  | error e =>
    rw [hread] at h
    cases h
  | ok bytes =>
    rw [hread] at h
    obtain ⟨_, _, hname⟩ := given_bind_ok h
    exact ⟨bytes, rfl, (Except.ok.inj hname).symm⟩

/-- A file that has a value is loaded. -/
theorem Gives.given (h : L.Gives path v) (ask : String → Except EvalError Value) :
    ∃ name, L.given ask (Attempt.loadFile L.host path) = .ok name := by
  obtain ⟨bytes, hread, hyields⟩ := h
  refine ⟨L.host.contentName bytes, ?_⟩
  rw [loadFile_eq, hread]
  dsimp only
  rw [given_bind, given_loadContent, if_pos hyields.bound]
  rfl

/-- What an inclusion that keeps to the contract tells: its value is the one that the file has by
itself, and is kept, and an error is for want of quotas or levels, or the file has no value. -/
inductive Included (L : Library) (path : String) : Except EvalError Value × Store Suspension → Prop
  | ok {v : Value} {bytes : Bytes} {s : Store Suspension}
      (read : L.host.storage.readBytes path = .ok bytes)
      (yields : L.Yields (L.host.contentName bytes) v)
      (kept : s.state? (L.host.contentName bytes) = some (.evaluated v))
      (whole : ∃ root, parse L.host.maxParseDepth bytes = .ok root ∧
        ∀ path ∈ root.declared (L.host.contentName bytes), s.contains path = true) :
      Included L path (.ok v, s)
  | error {e : EvalError} {s : Store Suspension}
      (tells : e.isResource = true ∨ ∀ v, ¬ L.Gives path v) : Included L path (.error e, s)

section

variable {active : List String} (hdisc : Disciplined s active) (hlinked : L.contract.Linked active)

include hdisc hlinked

/-- The request for a file that is loaded. -/
theorem included_of_loaded (hread : L.host.storage.readBytes path = .ok bytes) (hs : L.Filed s)
    (hname : s.contains (L.host.contentName bytes) = true)
    (hasks : L.contract.asks active.head? (L.host.contentName bytes)) (left : Nat) :
    L.Included path (s.value (behaviour L.host) left (L.host.contentName bytes)) := by
  have hfile : L.host.InFile (L.host.contentName bytes) := ⟨bytes, ⟨path, hread⟩, .refl _⟩
  obtain ⟨hs', hanswers⟩ := Contract.answers_value L.contract_kept hdisc hlinked hs hasks left
  have hext : s.Extends (s.value (behaviour L.host) left (L.host.contentName bytes)).2 :=
    (disciplined_exec (behaviour L.host) (.value left (L.host.contentName bytes) .done) hdisc).2
  have hname' := hext.contains hname
  generalize s.value (behaviour L.host) left (L.host.contentName bytes) =
    out at hs' hanswers hname' ⊢
  obtain ⟨r, s'⟩ := out
  cases r with
  | ok v => exact .ok hread (hs'.yields hfile hanswers) hanswers (hs'.whole ⟨path, hread⟩ hname')
  | error e =>
    refine .error (hanswers.imp_right fun hbarren v hv => ?_)
    obtain ⟨bytes', hread', hyields⟩ := hv
    rw [hread, Except.ok.injEq] at hread'
    subst hread'
    exact hyields.not_barren (hbarren hfile hname')

theorem included_of_honors {left : Nat} {post : Store Suspension → Except EvalError Value → Prop}
    (h : L.contract.Honors (L.contract.asks active.head?) post
      (Attempt.valueOfFile L.host left path).run s) :
    L.Included path (s.exec (behaviour L.host) (Attempt.valueOfFile L.host left path).run) := by
  rw [exec_valueOfFile]
  cases hread : L.host.storage.readBytes path with
  | error e =>
    rw [loadFile_eq, hread]
    refine .error (Or.inr fun v hv => ?_)
    obtain ⟨bytes, hread', _⟩ := hv
    rw [hread] at hread'
    cases hread'
  | ok bytes =>
    have hloading : L.contract.Honors (L.contract.asks active.head?)
        (fun s' r => L.contract.Honors (L.contract.asks active.head?) post
          (ExceptT.bindCont (Attempt.value left) r) s') (Attempt.loadFile L.host path).run s :=
      Contract.honors_bind.mp h
    have hs : L.Filed s := by
      rw [loadFile_eq, hread] at hloading
      exact hloading.1
    have hrest := Contract.honors_exec L.contract_kept _ hdisc hlinked hloading
    obtain ⟨hs', hgiven, hloaded⟩ := Contract.honors_exec L.contract_kept _ hdisc hlinked
      (honors_loadFile (L.contract.asks active.head?) hs path)
    have hdisc' := (disciplined_exec (behaviour L.host) (Attempt.loadFile L.host path).run hdisc).1
    generalize s.exec (behaviour L.host) (Attempt.loadFile L.host path).run = out
      at hrest hs' hgiven hloaded hdisc' ⊢
    obtain ⟨r, s'⟩ := out
    cases r with
    | error e =>
      refine .error (Or.inr fun v hv => ?_)
      obtain ⟨name, hname⟩ := hv.given fun _ => .ok .null
      rw [hgiven] at hname
      cases hname
    | ok name =>
      obtain ⟨_, hasks, _⟩ := hrest
      obtain ⟨_, hname⟩ := hloaded name rfl
      obtain ⟨bytes', hread', rfl⟩ := given_loadFile_ok (hgiven fun _ => .ok .null)
      exact included_of_loaded hdisc' hlinked hread' hs' hname hasks left

end

/-- A client may include what it likes. -/
theorem honors_valueOfFile (hs : L.Filed s) (left : Nat) (path : String) :
    L.contract.Honors (L.contract.asks none) (fun _ _ => True)
      (Attempt.valueOfFile L.host left path).run s := by
  apply (honors_loadFile _ hs path).bind
  rintro s' r _ ⟨hs', _, _⟩
  cases r with
  | error e => trivial
  | ok name => exact ⟨hs', trivial, fun _ _ _ _ _ => trivial⟩

theorem Included.eq_ok_iff {out : Except EvalError Value × Store Suspension}
    (h : L.Included path out) (hran : ranOut out.1 = false) : out.1 = .ok v ↔ L.Gives path v := by
  cases h with
  | @ok w bytes s' read yields kept whole =>
    have hgives : L.Gives path w := ⟨bytes, read, yields⟩
    refine ⟨fun hv => Except.ok.inj hv ▸ hgives, fun hv => ?_⟩
    rw [hv.unique hgives]
  | @error e s' tells =>
    refine iff_of_false nofun ?_
    rcases tells with hresource | hnone
    · exact absurd hran (by simp [ranOut, hresource])
    · exact hnone v

end Library

/-! ## Sessions -/

section

variable {limits : Limits} {calls : List Session.Call}

/-- The files of a host, with nothing else. -/
def Host.CollisionFree.files (h : host.CollisionFree) : Library := (loaded_empty host {}).library h

variable (hdigest : host.CollisionFree)
  (hnames : ∀ c ∈ calls, ∀ name, c.LoadsAs name → host.Spares name)

include hnames

theorem Inclusion.included (i : Inclusion host limits calls) :
    hdigest.files.Included i.path i.outcome := by
  have hm := Contract.holds_run hdigest.files.contract_kept i.run
    (hdigest.files.honors_client (hdigest.files.filed_empty limits) hnames)
  have hcontrol := hm.control
  rw [i.control] at hcontrol
  exact hdigest.files.included_of_honors hm.disciplined hm.linked (Contract.honors_bind.mp hcontrol)

variable (limits calls) in
theorem Session.included (path : String) :
    hdigest.files.Included path
      (((Session.new host limits).perform calls).store.exec (behaviour host)
      (Attempt.valueOfFile host host.maxDepth path).run) := by
  have hdisc := (disciplined_exec (behaviour host) (Session.client host calls)
    (disciplined_empty limits)).1
  have hs : hdigest.files.Filed ((Store.empty limits).exec (behaviour host)
      (Session.client host calls)).2 :=
    Contract.honors_exec hdigest.files.contract_kept _ (disciplined_empty limits) trivial
      (hdigest.files.honors_client (hdigest.files.filed_empty limits) hnames)
  rw [← Session.exec_client (.new host limits) calls]
  exact hdigest.files.included_of_honors hdisc trivial
    (hdigest.files.honors_valueOfFile hs host.maxDepth path)

/-- From a successful inclusion on, the file is shared, and all inclusions in the session agree with
it. -/
theorem shared_of_included {path : String} (h : hdigest.files.Included path (.ok v, s)) :
    ∃ bytes, host.storage.readBytes path = .ok bytes ∧
      (∀ (j : Inclusion host limits calls) (w : Value), host.storage.readBytes j.path = .ok bytes →
        j.outcome.1 = .ok w → w = v) ∧
      ∀ s', s.Extends s' → Tidy s' → Shared host s' bytes v := by
  cases h with
  | @ok _ bytes _ read yields kept whole =>
    refine ⟨bytes, read, fun j w hread hw => ?_, fun s' hext htidy => ?_⟩
    · have hj : ranOut j.outcome.1 = false := by rw [hw]; rfl
      obtain ⟨bytes', hread', hyields⟩ := ((j.included hdigest hnames).eq_ok_iff hj).mp hw
      obtain rfl : bytes' = bytes := Except.ok.inj (hread'.symm.trans hread)
      exact hyields.unique yields
    · apply shared_of_kept htidy (hext.value _ _ kept)
      obtain ⟨root, hparse, hall⟩ := whole
      exact ⟨root, hparse, fun path hpath => hext.contains (hall path hpath)⟩

end

/-! ## The law -/

/-- Whether a call fails because a quota or the depth limit ran out. -/
def stopped {α : Type} : Except Failure α → Bool
  | .ok _ => false
  | .error f => f.kind = .resource

theorem stopped_mapError {α : Type} (r : Except EvalError α) :
    stopped (r.mapError .evaluation) = ranOut r := by
  cases r with
  | ok a => rfl
  | error e => cases e <;> rfl

theorem mapError_eq_ok {α ε ε' : Type} {f : ε → ε'} {r : Except ε α} {a : α} :
    r.mapError f = .ok a ↔ r = .ok a := by
  cases r <;> simp [Except.mapError]

/-- Take a host whose digest tells its files apart, and any calls to a new session, none of which
loads a document under the name of a file or one that goes on after it with a dot. Wherever a call
of the builtin is evaluated with a path, the file is included, and the call has the value of the
inclusion, or its error at the place of the call. Wherever a file is included, it has the value that
it has in a new session where it is loaded and requested and nothing else is done, or none if it has
none there, unless a limit is hit. Once an inclusion or a request of the client obtains the value of
a file, the file is shared at every moment from then on: it is the value of one binding, which all
others obtain who include or load the same contents by whatever path, and the bindings of the
document are there, each once. -/
theorem includes_are_hermetic_and_shared {limits : Limits} {calls : List Session.Call}
    (hdigest : host.CollisionFree)
    (hnames : ∀ c ∈ calls, ∀ name, c.LoadsAs name → host.Spares name) :
    (∀ c : IncludeCall host limits calls, ∃ i : Inclusion host limits calls, i.path = c.path ∧
      i.left = c.left ∧ i.moment.store = c.given.store ∧ c.outcome =
        ((i.outcome.1.map (·, c.given.made)).mapError fun e => e.located c.span, i.outcome.2)) ∧
    (∀ (i : Inclusion host limits calls) (limits' : Limits), ranOut i.outcome.1 = false →
      stopped ((Session.new host limits').valueOfFile i.path).1 = false → ∀ v,
        i.outcome.1 = .ok v ↔ ((Session.new host limits').valueOfFile i.path).1 = .ok v) ∧
    (∀ (i : Inclusion host limits calls) (v : Value), i.outcome.1 = .ok v →
      ∃ bytes, host.storage.readBytes i.path = .ok bytes ∧
        (∀ (j : Inclusion host limits calls) (w : Value),
          host.storage.readBytes j.path = .ok bytes →
          j.outcome.1 = .ok w → w = v) ∧
        ∀ log m, Run (behaviour host) i.after log m → Shared host m.store bytes v) ∧
    ∀ (path : String) (v : Value) (s : Session),
      ((Session.new host limits).perform calls).valueOfFile path = (.ok v, s) →
        ∃ bytes, host.storage.readBytes path = .ok bytes ∧
          (∀ (j : Inclusion host limits calls) (w : Value),
            host.storage.readBytes j.path = .ok bytes →
            j.outcome.1 = .ok w → w = v) ∧
          ∀ more log m, Run (behaviour host) ⟨Session.client host more, [], s.store⟩ log m →
            Shared host m.store bytes v := by
  refine ⟨IncludeCall.exists_inclusion, fun i limits' hran hstopped v => ?_, fun i v hv => ?_,
    fun path v s hv => ?_⟩
  · have hfresh := Session.included limits' [] hdigest nofun i.path
    rw [Session.valueOfFile_eq] at hstopped ⊢
    rw [mapError_eq_ok]
    rw [stopped_mapError] at hstopped
    exact ((i.included hdigest hnames).eq_ok_iff hran).trans (hfresh.eq_ok_iff hstopped).symm
  · have hincluded := i.included hdigest hnames
    rw [show i.outcome = (.ok v, i.outcome.2) from Prod.ext hv rfl] at hincluded
    obtain ⟨bytes, hread, hsame, hshared⟩ := shared_of_included hdigest hnames hincluded
    refine ⟨bytes, hread, hsame, fun log m hrun => ?_⟩
    obtain ⟨before, hbefore⟩ := i.run_after
    apply hshared
    · exact extends_run hrun (disciplined_run hbefore)
    · exact (hbefore.trans hrun).keeps tidy_step (tidy_empty limits)
  · have hincluded := Session.included limits calls hdigest hnames path
    obtain ⟨hdisc, htidy⟩ := Session.idle_perform host limits calls
    rw [Session.valueOfFile_eq, Session.host_perform, Prod.mk.injEq, mapError_eq_ok] at hv
    obtain ⟨hv, rfl⟩ := hv
    have hdisc' := (disciplined_exec (behaviour host)
      (Attempt.valueOfFile host host.maxDepth path).run hdisc).1
    have htidy' := tidy_exec (behaviour host)
      (Attempt.valueOfFile host host.maxDepth path).run htidy
    rw [show Store.exec _ _ _ = (.ok v, Prod.snd _) from Prod.ext hv rfl] at hincluded
    obtain ⟨bytes, hread, hsame, hshared⟩ := shared_of_included hdigest hnames hincluded
    refine ⟨bytes, hread, hsame, fun more log m hrun => ?_⟩
    apply hshared
    · exact extends_run hrun hdisc'
    · exact hrun.keeps tidy_step htidy'

/-- A document that includes the file. -/
def including : Bytes := Utf8.encode "include('l')"

def includingRoot : Expr := .call ⟨0, 12⟩ (.identifier ⟨0, 7⟩ "include") [.string ⟨8, 11⟩ "l"]

/-- Loads the document, and asks for its value. -/
def includingCalls : List Session.Call := [.loadSource "m" including, .value "m"]

/-- The store when the body of the document includes the file. -/
def includingStore : Store Suspension :=
  ((Store.empty {}).addAll (documentBindings "m" includingRoot)).start "m"

/-- Its body is a call that includes the file. -/
theorem exists_includeCall : ∃ c : IncludeCall oneFile {} includingCalls,
    c.path = "l" ∧ c.left = 63 ∧ c.given = ⟨includingStore, 1⟩ := by
  have hparse : parse oneFile.maxParseDepth including = .ok includingRoot := by decide +kernel
  have hloads : (exec (behaviour oneFile) (Session.Call.program oneFile (.loadSource "m" including))
      (Store.empty {})).2 = (Store.empty {}).addAll (documentBindings "m" includingRoot) := by
    rw [Session.Call.program, hparse]
    dsimp only
    rw [exec_bind, exec_loadDocument]
    rfl
  obtain ⟨before, hload⟩ := run_exec_bind (behaviour oneFile)
    (Session.Call.program oneFile (.loadSource "m" including)) (Store.empty {})
    (fun _ => Session.client oneFile [.value "m"]) []
  rw [hloads] at hload
  have hreply : ((Store.empty {}).addAll (documentBindings "m" includingRoot)).reply "m" =
      .run ⟨"m", ["m"], .expression includingRoot⟩ := rfl
  have henter := hload.step (Step.enter hreply)
  exact ⟨⟨_, _, 63, innerOf oneFile 63, ⟨"m", ["m"], []⟩, ⟨0, 12⟩, .identifier ⟨0, 7⟩ "include",
    [.string ⟨8, 11⟩ "l"], 0, _, henter, rfl, ⟨"m", 0⟩, "l", ⟨includingStore, 1⟩,
    ⟨includingStore, 1⟩, rfl, rfl⟩, rfl, rfl, rfl⟩

/-- The call has the text in the file, which the client of a new session obtains too, and from then
on the file is shared. -/
theorem includes_are_hermetic_and_shared_in_includingCalls :
    ∃ (c : IncludeCall oneFile {} includingCalls) (i : Inclusion oneFile {} includingCalls)
      (v : Value), c.path = "l" ∧ i.path = c.path ∧ c.outcome.1 = .ok (v, 1) ∧
      i.outcome.1 = .ok v ∧ v.string? = some "x" ∧
      ((Session.new oneFile {}).valueOfFile i.path).1 = .ok v ∧
      ∃ bytes, oneFile.storage.readBytes i.path = .ok bytes ∧
        Shared oneFile i.outcome.2 bytes v := by
  have hnames : ∀ c ∈ includingCalls, ∀ name, c.LoadsAs name → oneFile.Spares name := by
    rintro c hc name ⟨bytes, rfl⟩
    rcases List.mem_cons.mp hc with heq | hc
    · rw [(Session.Call.loadSource.inj heq).1]
      exact oneFile.spares_of_head (by decide)
    · cases List.mem_singleton.mp hc
  obtain ⟨c, hc, hlevels, hgiven⟩ := exists_includeCall
  obtain ⟨hcall, hsame, hshared, _⟩ :=
    includes_are_hermetic_and_shared collisionFree_oneFile hnames
  obtain ⟨i, hpath, hleft, hstore, houtcome⟩ := hcall c
  rw [hgiven] at hstore houtcome
  have hout : i.outcome.1.toOption.bind Value.string? = some "x" := by
    unfold Inclusion.outcome
    rw [hstore, hpath, hc, hleft, hlevels]
    decide +kernel
  have hstopped : stopped ((Session.new oneFile {}).valueOfFile i.path).1 = false := by
    rw [hpath, hc]
    decide +kernel
  obtain ⟨v, hv, htext⟩ := Option.bind_eq_some_iff.mp hout
  have hok : i.outcome.1 = .ok v := by
    cases hr : i.outcome.1 with
    | error e =>
      rw [hr] at hv
      cases hv
    | ok w =>
      rw [hr] at hv
      exact congrArg Except.ok (Option.some.inj hv)
  obtain ⟨bytes, hread, _, hlater⟩ := hshared i v hok
  refine ⟨c, i, v, hc, hpath, ?_, hok, htext,
    (hsame i {} (by rw [hok]; rfl) hstopped v).mp hok, bytes, hread, hlater [] i.after (.here _)⟩
  rw [houtcome, hok]
  rfl

end LazyConfig
