-- Runs, moment by moment. At a moment one program is in control: the client at the top, or the
-- body of a binding, below which everyone waits who asked for a binding whose body still runs.
-- A body can do what it likes: define, ask, catch an error and go on.
-- Main statement: running a program on a store is such a run, from its first moment to its last.
import LazyConfig.Proofs.Engine.Execution

namespace LazyConfig.Store

variable {T R α : Type}

/-! ## Moments -/

/-- A forcing under way: the binding whose body runs, and what the one who asked does with the
outcome. -/
structure Call (T R : Type) where
  name : String
  next : Except EvalError Value → Program T R (Except EvalError Value)

/-- A moment of a run: the program in control, the forcings under way, the innermost first, and
the store. -/
structure Moment (T R : Type) where
  program : Program T R (Except EvalError Value)
  calls : List (Call T R)
  store : Store T

namespace Moment

/-- The bindings whose bodies are running, the innermost first. -/
def active (m : Moment T R) : List String := m.calls.map (·.name)

/-- A client before its first call to a new store. -/
def initial (limits : Limits) (client : Program T R (Except EvalError Value)) : Moment T R :=
  ⟨client, [], .empty limits⟩

end Moment

/-! ## Steps -/

/-- From a moment to the next one, and the body that is invoked between them, if one is. -/
inductive Step (behaviour : Behaviour T R) : Moment T R → List String → Moment T R → Prop
  | define {name body next calls s} :
      Step behaviour ⟨.define name body next, calls, s⟩ []
        ⟨next (s.define name body).1, calls, (s.define name body).2⟩
  | contains {name next calls s} :
      Step behaviour ⟨.contains name next, calls, s⟩ [] ⟨next (s.contains name), calls, s⟩
  /-- A request that is answered at once. -/
  | answer {context name next calls s r} (h : s.reply name = .now r) :
      Step behaviour ⟨.value context name next, calls, s⟩ [] ⟨next r, calls, s⟩
  /-- A request that invokes a body. -/
  | enter {context name next calls s body} (h : s.reply name = .run body) :
      Step behaviour ⟨.value context name next, calls, s⟩ [name]
        ⟨behaviour body context, ⟨name, next⟩ :: calls, s.start name⟩
  /-- A body ends, and the one who asked goes on. -/
  | leave {r call calls s} :
      Step behaviour ⟨.done r, call :: calls, s⟩ []
        ⟨call.next (s.finish call.name r).1, calls, (s.finish call.name r).2⟩

/-- From a moment to a later one, and the bodies that are invoked between them, in order. -/
inductive Run (behaviour : Behaviour T R) : Moment T R → List String → Moment T R → Prop
  | here (m : Moment T R) : Run behaviour m [] m
  | step {m log m' new m''} :
      Run behaviour m log m' → Step behaviour m' new m'' → Run behaviour m (log ++ new) m''

variable {behaviour : Behaviour T R}

theorem Run.single {m m' : Moment T R} {new : List String} (h : Step behaviour m new m') :
    Run behaviour m new m' := Run.step (Run.here m) h

theorem Run.trans {m m' m'' : Moment T R} {log log' : List String} (h : Run behaviour m log m')
    (h' : Run behaviour m' log' m'') : Run behaviour m (log ++ log') m'' := by
  induction h' with
  | here => simpa using h
  | step _ hstep ih =>
    rw [← List.append_assoc]
    exact Run.step ih hstep

/-- What every step keeps, every run keeps. -/
theorem Run.keeps {P : Moment T R → Prop}
    (hstep : ∀ {m new m'}, Step behaviour m new m' → P m → P m') {m m' : Moment T R}
    {log : List String} (h : Run behaviour m log m') (hm : P m) : P m' := by
  induction h with
  | here => exact hm
  | step _ hs ih => exact hstep hs ih

/-- Bodies that are null, or the value of another binding. -/
def aliases : Behaviour (Option String) Unit := fun body _ =>
  match body with
  | none => .done (.ok .null)
  | some name => .value () name .done

/-! ## Programs run through their moments -/

variable (behaviour)

/-- What is left of a program comes to control when the program has run. -/
theorem run_exec_bind (p : Program T R α) (s : Store T)
    (next : α → Program T R (Except EvalError Value)) (calls : List (Call T R)) :
    ∃ log, Run behaviour ⟨p.bind next, calls, s⟩ log
      ⟨next (exec behaviour p s).1, calls, (exec behaviour p s).2⟩ := by
  refine exec_induction behaviour
    (motive := fun {α} p s => ∀ (next : α → Program T R (Except EvalError Value)) calls,
      ∃ log, Run behaviour ⟨p.bind next, calls, s⟩ log
        ⟨next (exec behaviour p s).1, calls, (exec behaviour p s).2⟩)
    ?done ?define ?contains ?now ?forced p s next calls
  case done => exact fun a s next calls => ⟨_, Run.here _⟩
  case define =>
    intro α name body rest s ih next calls
    obtain ⟨log, hrun⟩ := ih next calls
    exact ⟨_, (Run.single Step.define).trans hrun⟩
  case contains =>
    intro α name rest s ih next calls
    obtain ⟨log, hrun⟩ := ih next calls
    exact ⟨_, (Run.single Step.contains).trans hrun⟩
  case now =>
    intro α context name rest s r hr ih next calls
    obtain ⟨log, hrun⟩ := ih next calls
    rw [exec_value, value_of_now behaviour hr]
    exact ⟨_, (Run.single (Step.answer hr)).trans hrun⟩
  case forced =>
    intro α context name rest s body hr ihbody ihrest next calls
    obtain ⟨inner, hinner⟩ := ihbody .done (⟨name, fun r => (rest r).bind next⟩ :: calls)
    obtain ⟨log, hrun⟩ := ihrest next calls
    rw [Program.bind_done] at hinner
    have hleave := hinner.step Step.leave
    rw [exec_value]
    rw [value_of_run behaviour hr] at hrun ⊢
    exact ⟨_, ((Run.single (Step.enter hr)).trans hleave).trans hrun⟩

/-- Running a program leads from the moment before it to the moment after it. -/
theorem run_exec (p : Program T R (Except EvalError Value)) (calls : List (Call T R))
    (s : Store T) :
    ∃ log, Run behaviour ⟨p, calls, s⟩ log
      ⟨.done (exec behaviour p s).1, calls, (exec behaviour p s).2⟩ := by
  have h := run_exec_bind behaviour p s .done calls
  rwa [Program.bind_done] at h

/-- A request that invokes a body does so first of all. -/
theorem run_value {s : Store T} {name : String} {body : T} (h : s.reply name = .run body)
    (context : R) (calls : List (Call T R)) :
    ∃ inner, Run behaviour ⟨.value context name .done, calls, s⟩ (name :: inner)
      ⟨.done (s.value behaviour context name).1, calls, (s.value behaviour context name).2⟩ := by
  obtain ⟨inner, hinner⟩ := run_exec behaviour (behaviour body context)
    (⟨name, .done⟩ :: calls) (s.start name)
  have hleave := hinner.step Step.leave
  rw [List.append_nil] at hleave
  rw [value_of_run behaviour h]
  exact ⟨inner, (Run.single (Step.enter h)).trans hleave⟩

end LazyConfig.Store
