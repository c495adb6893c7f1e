-- Where values come from. A value that a binding has was the result of its body, when the binding
-- was forced at some moment of the run, and all that the body found or left in the store is still
-- there.
-- Main statement: whatever is kept in the end was the result of a forcing on the way.
import LazyConfig.Proofs.Engine.Permanence

namespace LazyConfig.Store

variable {T R : Type} {behaviour : Behaviour T R} {limits : Limits}
  {client : Program T R (Except EvalError Value)} {name : String} {v : Value}

/-! ## Forcings -/

/-- A moment of the run of a client at which a binding is asked for and its body is run, with a
value as its result. -/
structure Forcing (behaviour : Behaviour T R) (limits : Limits)
    (client : Program T R (Except EvalError Value)) (name : String) (v : Value) where
  log : List String
  context : R
  next : Except EvalError Value → Program T R (Except EvalError Value)
  calls : List (Call T R)
  store : Store T
  body : T
  run : Run behaviour (.initial limits client) log ⟨.value context name next, calls, store⟩
  reply : store.reply name = .run body
  result : (exec behaviour (behaviour body context) (store.start name)).1 = .ok v

/-- The store that the body leaves. -/
def Forcing.after (f : Forcing behaviour limits client name v) : Store T :=
  (exec behaviour (behaviour f.body f.context) (f.store.start name)).2

/-- While the body runs its binding is in progress. -/
theorem Forcing.disciplined (f : Forcing behaviour limits client name v) :
    ∃ active, Disciplined f.after (name :: active) ∧ (f.store.start name).Extends f.after :=
  ⟨_,
    disciplined_exec behaviour (behaviour f.body f.context) ((disciplined_run f.run).start f.reply)⟩

/-- What the end of the forcing keeps was kept by the body, or is its result. -/
theorem state?_of_finish {s : Store T} {r : Except EvalError Value} {n : String}
    (h : (s.finish name r).2.state? n = some (.evaluated v)) :
    s.state? n = some (.evaluated v) ∨ n = name ∧ r = .ok v := by
  rcases finish_cases s name r with ⟨e, hf⟩ | ⟨w, hw, _, hf⟩
  · rw [hf] at h
    exact Or.inl (state?_of_mark (by simp) h)
  · rw [hw] at h hf
    rw [hf] at h
    rw [state?_finish_ok hf] at h
    by_cases hn : n = name
    · rw [if_pos hn, Option.map_eq_some_iff] at h
      obtain ⟨_, _, heq⟩ := h
      rw [BindingState.evaluated.injEq] at heq
      exact Or.inr ⟨hn, heq ▸ hw⟩
    · rw [if_neg hn] at h
      exact Or.inl h

/-- A binding keeps the value that it is asked for with success. -/
theorem state?_of_value_ok {s s' : Store T} {active : List String} (hs : Disciplined s active)
    {context : R} (h : s.value behaviour context name = (.ok v, s')) :
    s'.state? name = some (.evaluated v) := by
  cases hr : s.reply name with
  | now r =>
    rw [value_of_now behaviour hr, Prod.mk.injEq] at h
    rw [← h.2]
    exact state?_of_reply_ok (h.1 ▸ hr)
  | run body =>
    have hend := (disciplined_exec behaviour (behaviour body context) (hs.start hr)).1
    have hprogress := (hend.mem_iff name).mpr List.mem_cons_self
    rw [value_of_run behaviour hr] at h
    dsimp only at h
    rcases finish_cases (exec behaviour (behaviour body context) (s.start name)).2 name
      (exec behaviour (behaviour body context) (s.start name)).1 with ⟨e, hf⟩ | ⟨w, hw, _, hf⟩
    · rw [hf] at h
      cases h
    · rw [hf, Prod.mk.injEq, Except.ok.injEq] at h
      rw [hw] at hf
      rw [← h.2, state?_finish_ok hf, if_pos rfl, hprogress, h.1]
      rfl

/-! ## Runs -/

/-- Wherever in the run the program comes to control on the store: what it leaves evaluated was
evaluated before, or is the result of a forcing, and the store has only grown since. -/
def Accounts {α : Type} (behaviour : Behaviour T R) (limits : Limits)
    (client : Program T R (Except EvalError Value)) (p : Program T R α) (s : Store T) : Prop :=
  ∀ (next : α → Program T R (Except EvalError Value)) (calls : List (Call T R)) (log : List String),
    Run behaviour (.initial limits client) log ⟨p.bind next, calls, s⟩ →
    ∀ n v, (exec behaviour p s).2.state? n = some (.evaluated v) →
      s.state? n = some (.evaluated v) ∨
        ∃ f : Forcing behaviour limits client n v, f.after.Extends (exec behaviour p s).2

theorem accounts_exec {α : Type} (behaviour : Behaviour T R) (limits : Limits)
    (client : Program T R (Except EvalError Value)) (p : Program T R α) (s : Store T) :
    Accounts behaviour limits client p s := by
  refine exec_induction behaviour (motive := fun {α} p s => Accounts behaviour limits client p s)
    ?done ?define ?contains ?now ?forced p s
  case done => exact fun a s next calls log _ n v hv => Or.inl hv
  case define =>
    intro α other body rest s ih next calls log hrun n v hv
    rcases ih next calls _ (hrun.step .define) n v hv with hold | hforced
    · exact Or.inl (state?_of_define hold)
    · exact Or.inr hforced
  case contains =>
    intro α other rest s ih next calls log hrun n v hv
    exact ih next calls _ (hrun.step .contains) n v hv
  case now =>
    intro α context other rest s r hr ih next calls log hrun n v hv
    rw [exec_value, value_of_now behaviour hr] at hv ⊢
    exact ih next calls _ (hrun.step (.answer hr)) n v hv
  case forced =>
    intro α context other rest s body hr ihbody ihrest next calls log hrun n v hv
    rw [exec_value, value_of_run behaviour hr] at hv ⊢
    rw [value_of_run behaviour hr] at ihrest
    -- the run goes on through the body to its end, and from there with the rest
    have henter := hrun.step (.enter hr)
    obtain ⟨inner, hinner⟩ := run_exec behaviour (behaviour body context)
      (⟨other, fun r => (rest r).bind next⟩ :: calls) (s.start other)
    have hend := henter.trans hinner
    have hleave := hend.step .leave
    have hprogress := ((disciplined_run hend).mem_iff other).mpr List.mem_cons_self
    have hkept :=
      extends_finish hprogress (exec behaviour (behaviour body context) (s.start other)).1
    have hgrown :=
      fun r => hkept.trans (disciplined_exec behaviour (rest r) (disciplined_run hleave)).2
    rcases ihrest next calls _ hleave n v hv with hfinish | hforced
    · rcases state?_of_finish hfinish with hbefore | ⟨rfl, hresult⟩
      · rw [← Program.bind_done (behaviour body context)] at henter
        rcases ihbody .done _ _ henter n v hbefore with hstart | ⟨f, hf⟩
        · exact Or.inl (state?_of_mark (by simp) hstart)
        · exact Or.inr ⟨f, hf.trans (hgrown _)⟩
      · exact Or.inr ⟨⟨log, context, _, calls, s, body, hrun, hr, hresult⟩, hgrown _⟩
    · exact Or.inr hforced

/-- Whatever a client leaves evaluated is the result of a forcing in its run, and all that the body
of the binding had found or left is as it was. -/
theorem exists_forcing {n : String} {v : Value}
    (h : (exec behaviour client (empty limits)).2.state? n = some (.evaluated v)) :
    ∃ f : Forcing behaviour limits client n v,
      f.after.Extends (exec behaviour client (empty limits)).2 := by
  have hstart :
      Run behaviour (.initial limits client) [] ⟨client.bind .done, [], empty limits⟩ := by
    rw [Program.bind_done]
    exact Run.here _
  have haccounts := accounts_exec behaviour limits client client (empty limits)
  rcases haccounts .done [] [] hstart n v h with hold | hforced
  · cases hold
  · exact hforced

end LazyConfig.Store
