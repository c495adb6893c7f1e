-- The same run with more of the quotas. What is left of them is looked at only where one may run
-- out, so a run that does not run out is the same with more of them, and what is left at its end is
-- more by as much.
-- Main statement: asking for a binding is the same with more of the quotas if running its body is.
import LazyConfig.Proofs.Engine.Execution

namespace LazyConfig.Store

variable {T R α β : Type} {room : Limits}

/-! ## Stores with more room -/

/-- The store as it were if there had been more of both quotas from the beginning. -/
def widen (room : Limits) (s : Store T) : Store T :=
  { s with
    limits := ⟨s.limits.steps + room.steps, s.limits.bytes + room.bytes⟩
    stepsLeft := s.stepsLeft + room.steps
    bytesLeft := s.bytesLeft + room.bytes }

theorem find?_widen (s : Store T) : (s.widen room).find? = s.find? := rfl

theorem contains_widen (s : Store T) : (s.widen room).contains = s.contains := rfl

/-- A body takes its step from what is left, so one has to be. -/
theorem start_widen {s : Store T} {name : String} {body : T} (h : s.reply name = .run body) :
    (s.widen room).start name = (s.start name).widen room := by
  obtain ⟨_, _, _, _, hsteps⟩ := reply_eq_run.mp h
  have hleft : s.stepsLeft + room.steps - 1 = s.stepsLeft - 1 + room.steps := by omega
  simp only [start, widen, mark, hleft]

/-! ## Outcomes that are cut off -/

/-- With less of the quotas an outcome is the same, or a quota ran out. -/
inductive Abridged (room : Limits) :
    Except EvalError α × Store T → Except EvalError α × Store T → Prop
  | whole (r : Except EvalError α) (s : Store T) : Abridged room (r, s) (r, s.widen room)
  | cut {e : EvalError} {s : Store T} {out : Except EvalError α × Store T}
      (h : e.isResource = true) : Abridged room (.error e, s) out

/-- A request that needs no body is answered at once, unless it is out of steps. -/
theorem reply_widen {s : Store T} {name : String} {r : Except EvalError Value}
    (h : s.reply name = .now r) :
    (s.widen room).reply name = .now r ∨ ∃ e, r = .error e ∧ e.isResource = true := by
  unfold reply at h ⊢
  rw [find?_widen]
  cases hf : s.find? name with
  | none =>
    rw [hf] at h
    exact Or.inl h
  | some b =>
    rw [hf] at h
    cases hb : b.state with
    | evaluated v => exact Or.inl (by simpa only [hb] using h)
    | inProgress => exact Or.inl (by simpa only [hb] using h)
    | unevaluated =>
      by_cases hs : s.stepsLeft = 0
      · simp only [hb, hs, if_true, Reply.now.injEq] at h
        exact Or.inr ⟨_, h.symm, rfl⟩
      · simp [hb, hs] at h

theorem reply_widen_run {s : Store T} {name : String} {body : T} (h : s.reply name = .run body) :
    (s.widen room).reply name = .run body := by
  obtain ⟨b, hf, hb, hbody, hsteps⟩ := reply_eq_run.mp h
  have hleft : (s.widen room).stepsLeft ≠ 0 := by
    show s.stepsLeft + room.steps ≠ 0
    omega
  exact reply_eq_run.mpr ⟨b, hf, hb, hbody, hleft⟩

theorem abridged_finish (s : Store T) (name : String) (result : Except EvalError Value) :
    Abridged room (s.finish name result) ((s.widen room).finish name result) := by
  cases result with
  | error e => exact .whole _ _
  | ok v =>
    by_cases h : s.bytesLeft < v.cost
    · simp only [finish, if_pos h]
      exact .cut rfl
    · have hwide : ¬ s.bytesLeft + room.bytes < v.cost := by omega
      have hleft : s.bytesLeft + room.bytes - v.cost = s.bytesLeft - v.cost + room.bytes := by omega
      have hfinish : (s.widen room).finish name (.ok v) = (.ok v,
          { s.mark name (.evaluated v) with bytesLeft := s.bytesLeft - v.cost }.widen room) := by
        simp only [finish, widen, mark, if_neg hwide, hleft]
      rw [hfinish, finish, if_neg h]
      exact .whole _ _

/-! ## Computations -/

/-- Whatever the store, the first computation does what the second does with more of the quotas, or
it ends because one runs out. -/
def Abridges (behaviour behaviour' : Behaviour T R) (room : Limits)
    (x y : ExceptT EvalError (Program T R) α) : Prop :=
  ∀ s : Store T, Abridged room (s.exec behaviour x.run) ((s.widen room).exec behaviour' y.run)

variable {behaviour behaviour' : Behaviour T R} {x y : ExceptT EvalError (Program T R) α}

theorem Abridges.pure (a : α) :
    Abridges behaviour behaviour' room (Pure.pure a) (Pure.pure a) := fun s => .whole (.ok a) s

theorem Abridges.throw (e : EvalError) :
    Abridges behaviour behaviour' room (MonadExcept.throw e : ExceptT EvalError (Program T R) α)
      (MonadExcept.throw e) := fun s => .whole (.error e) s

/-- What is out of a resource abridges anything. -/
theorem Abridges.exhausted {e : EvalError} (h : e.isResource = true)
    (y : ExceptT EvalError (Program T R) α) :
    Abridges behaviour behaviour' room (MonadExcept.throw e) y := fun _ => .cut h

theorem Abridges.bind {f g : α → ExceptT EvalError (Program T R) β}
    (hx : Abridges behaviour behaviour' room x y)
    (hf : ∀ a, Abridges behaviour behaviour' room (f a) (g a)) :
    Abridges behaviour behaviour' room (x >>= f) (y >>= g) := by
  intro s
  have hs := hx s
  rw [exec_run_bind, exec_run_bind]
  generalize s.exec behaviour x.run = out, (s.widen room).exec behaviour' y.run = out' at hs ⊢
  cases hs with
  | whole r s' =>
    cases r with
    | ok a => exact hf a s'
    | error e => exact .whole (.error e) s'
  | cut h => exact .cut h

theorem Abridges.adapt (hx : Abridges behaviour behaviour' room x y)
    {place : EvalError → EvalError} (hplace : ∀ e, (place e).isResource = e.isResource) :
    Abridges behaviour behaviour' room (ExceptT.adapt place x) (ExceptT.adapt place y) := by
  intro s
  have hs := hx s
  rw [exec_adapt, exec_adapt]
  generalize s.exec behaviour x.run = out, (s.widen room).exec behaviour' y.run = out' at hs ⊢
  cases hs with
  | whole r s' => exact .whole _ s'
  | cut h => exact .cut ((hplace _).trans h)

/-- The two runs stay in step through the forcing of a binding if they do through its body. -/
theorem abridged_value {context context' : R}
    (hbody : ∀ body, Abridges behaviour behaviour' room (behaviour body context)
      (behaviour' body context')) (s : Store T) (name : String) :
    Abridged room (s.value behaviour context name)
      ((s.widen room).value behaviour' context' name) := by
  cases hr : s.reply name with
  | now r =>
    rw [value_of_now behaviour hr]
    rcases reply_widen hr with hwide | ⟨e, rfl, he⟩
    · rw [value_of_now behaviour' hwide]
      exact .whole r s
    · exact .cut he
  | run body =>
    rw [value_of_run behaviour hr, value_of_run behaviour' (reply_widen_run hr), start_widen hr]
    have hrun := hbody body (s.start name)
    unfold ExceptT.run at hrun
    generalize (s.start name).exec behaviour (behaviour body context) = out,
      ((s.start name).widen room).exec behaviour' (behaviour' body context') = out' at hrun ⊢
    cases hrun with
    | whole r s' => exact abridged_finish s' name r
    | cut h => exact .cut h

end LazyConfig.Store
