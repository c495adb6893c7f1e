-- Which bindings are in progress: those whose bodies run at the moment, each once, whatever the
-- bodies do and however they end. So a request is a cycle exactly for those.
-- Main statement: the bindings in progress are the forcings under way.
import LazyConfig.Proofs.Engine.Run

namespace LazyConfig.Store

variable {T R : Type} {behaviour : Behaviour T R}

/-! ## States after each operation -/

/-- A definition puts nothing in progress, and takes nothing out of it. -/
theorem inProgress_define (s : Store T) (name : String) (body : T) (other : String) :
    (s.define name body).2.state? other = some .inProgress ↔
      s.state? other = some .inProgress := by
  by_cases hc : s.contains name = true
  · rw [define_taken hc]
  · have hc' : s.contains name = false := by simpa using hc
    have hnone : s.find? name = none := by simpa [contains_eq] using hc'
    rw [state?, find?_define hc', state?]
    by_cases ho : other = name
    · simp [ho, hnone]
    · simp [ho]

/-- A definition adds no value. -/
theorem state?_of_define {s : Store T} {name : String} {body : T} {n : String} {v : Value}
    (h : (s.define name body).2.state? n = some (.evaluated v)) :
    s.state? n = some (.evaluated v) := by
  by_cases hc : s.contains name = true
  · rwa [define_taken hc] at h
  · rw [state?, find?_define (by simpa using hc)] at h
    by_cases hn : n = name
    · rw [if_pos hn] at h
      cases h
    · rwa [if_neg hn] at h

/-- The end of a forcing changes the state of its binding only, to one that is not in
progress. -/
theorem state?_finish (s : Store T) (name : String) (result : Except EvalError Value) :
    ∃ state, state ≠ BindingState.inProgress ∧ ∀ other,
      (s.finish name result).2.state? other =
        if other = name then (s.state? other).map fun _ => state else s.state? other := by
  rcases finish_cases s name result with ⟨e, h⟩ | ⟨v, _, _, h⟩
  · refine ⟨.unevaluated, by simp, fun other => ?_⟩
    rw [h]
    exact state?_mark s name .unevaluated other
  · refine ⟨.evaluated v, by simp, fun other => ?_⟩
    rw [h]
    exact state?_mark s name (.evaluated v) other

/-- A mark that is no value adds none. -/
theorem state?_of_mark {s : Store T} {name : String} {state : BindingState}
    (hstate : ∀ v, state ≠ .evaluated v) {n : String} {v : Value}
    (hv : (s.mark name state).state? n = some (.evaluated v)) :
    s.state? n = some (.evaluated v) := by
  rw [state?_mark] at hv
  by_cases hn : n = name
  · rw [if_pos hn, Option.map_eq_some_iff] at hv
    obtain ⟨_, _, heq⟩ := hv
    exact absurd heq (hstate v)
  · rw [if_neg hn] at hv
    exact hv

/-- A value that is too large is refused, any other is kept. -/
theorem finish_ok_cases (s : Store T) (name : String) (v : Value) :
    (∃ e, e.isResource = true ∧
      s.finish name (.ok v) = (.error e, s.mark name .unevaluated)) ∨
    ∃ kept, s.finish name (.ok v) = (.ok v, kept) := by
  by_cases h : s.bytesLeft < v.cost
  · exact Or.inl ⟨.spaceLimit v.cost s.bytesLeft, rfl, by simp [finish, h]⟩
  · exact Or.inr ⟨_, by simp [finish, h]; rfl⟩

theorem state?_finish_ok {s kept : Store T} {name : String} {v : Value}
    (h : s.finish name (.ok v) = (.ok v, kept)) (other : String) :
    kept.state? other =
      if other = name then (s.state? other).map fun _ => .evaluated v else s.state? other := by
  rcases finish_cases s name (.ok v) with ⟨e, hf⟩ | ⟨w, hw, _, hf⟩
  · rw [hf] at h
    cases h
  · rw [hf, Prod.mk.injEq] at h
    rw [Except.ok.injEq] at hw
    subst hw
    rw [← h.2]
    exact state?_mark s name (.evaluated v) other

/-! ## The invariant -/

/-- The bindings in progress are those of the forcings under way, and no two of these are of one
binding. -/
structure Disciplined (s : Store T) (active : List String) : Prop where
  mem_iff : ∀ n, s.state? n = some .inProgress ↔ n ∈ active
  nodup : active.Nodup

theorem disciplined_empty (limits : Limits) : Disciplined (empty limits : Store T) [] :=
  ⟨fun n => by simp [state?, find?_empty], List.nodup_nil⟩

theorem Disciplined.define {s : Store T} {active : List String} (h : Disciplined s active)
    (name : String) (body : T) : Disciplined (s.define name body).2 active :=
  ⟨fun n => (inProgress_define s name body n).trans (h.mem_iff n), h.nodup⟩

theorem Disciplined.start {s : Store T} {active : List String} (h : Disciplined s active)
    {name : String} {body : T} (hr : s.reply name = .run body) :
    Disciplined (s.start name) (name :: active) := by
  obtain ⟨b, hf, hb, _, _⟩ := reply_eq_run.mp hr
  have hstate : s.state? name = some .unevaluated := by simp [state?, hf, hb]
  have hnot : name ∉ active := by
    rw [← h.mem_iff, hstate]
    simp
  refine ⟨fun n => ?_, List.nodup_cons.mpr ⟨hnot, h.nodup⟩⟩
  rw [state?_start, state?_mark, List.mem_cons, ← h.mem_iff]
  by_cases hn : n = name
  · simp [hn, hstate]
  · simp [hn]

theorem Disciplined.finish {s : Store T} {name : String} {active : List String}
    (h : Disciplined s (name :: active)) (result : Except EvalError Value) :
    Disciplined (s.finish name result).2 active := by
  obtain ⟨hnot, hnodup⟩ := List.nodup_cons.mp h.nodup
  obtain ⟨state, hstate, hafter⟩ := state?_finish s name result
  refine ⟨fun n => ?_, hnodup⟩
  rw [hafter]
  by_cases hn : n = name
  · simp [hn, hnot, hstate]
  · rw [if_neg hn, h.mem_iff, List.mem_cons]
    simp [hn]

theorem disciplined_step {m m' : Moment T R} {new : List String} (h : Step behaviour m new m')
    (hm : Disciplined m.store m.active) : Disciplined m'.store m'.active := by
  cases h with
  | define => exact hm.define _ _
  | contains => exact hm
  | answer => exact hm
  | enter hr => exact hm.start hr
  | leave => exact hm.finish _

theorem disciplined_run {limits : Limits} {client : Program T R (Except EvalError Value)}
    {m : Moment T R} {log : List String} (h : Run behaviour (.initial limits client) log m) :
    Disciplined m.store m.active :=
  h.keeps disciplined_step (disciplined_empty limits)

/-! ## Cycles -/

theorem invoked_finish (s : Store T) (name : String) (result : Except EvalError Value) :
    (s.finish name result).2.invoked = s.invoked := by
  rcases finish_cases s name result with ⟨e, h⟩ | ⟨v, _, _, h⟩
  · rw [h]; rfl
  · rw [h]; rfl

theorem invoked_define (s : Store T) (name : String) (body : T) :
    (s.define name body).2.invoked = s.invoked := by
  unfold Store.define
  split <;> rfl

/-- The list of bodies that were run only grows. -/
theorem invoked_run {m m' : Moment T R} {log : List String} (h : Run behaviour m log m') :
    m'.store.invoked = log.reverse ++ m.store.invoked := by
  induction h with
  | here => rfl
  | step _ hs ih =>
    cases hs with
    | define => rw [invoked_define, ih]; simp
    | contains => rw [ih]; simp
    | answer => rw [ih]; simp
    | enter => simpa [start, mark] using ih
    | leave => rw [invoked_finish, ih]; simp

/-- A request that leaves the store as it is was answered at once. -/
theorem reply_of_value_same {s : Store T} {name : String} {context : R}
    {r : Except EvalError Value} (h : s.value behaviour context name = (r, s)) :
    s.reply name = .now r := by
  cases hr : s.reply name with
  | now r' =>
    rw [value_of_now behaviour hr] at h
    rw [(Prod.mk.inj h).1]
  | run body =>
    obtain ⟨inner, hrun⟩ := run_value behaviour hr context []
    have hlog := congrArg List.length (invoked_run hrun)
    rw [h] at hlog
    simp only [List.length_append, List.length_reverse, List.length_cons] at hlog
    omega

theorem reply_eq_cycle {s : Store T} {name : String} :
    s.reply name = .now (.error (.cycle name)) ↔ s.state? name = some .inProgress := by
  refine ⟨fun h => ?_, reply_inProgress⟩
  unfold reply at h
  cases hf : s.find? name with
  | none => simp [hf] at h
  | some b =>
    cases hb : b.state with
    | evaluated v => simp [hf, hb] at h
    | inProgress => simp [state?, hf, hb]
    | unevaluated =>
      simp only [hf, hb] at h
      split at h <;> simp at h

/-- A value that is given out at once is kept. -/
theorem state?_of_reply_ok {s : Store T} {name : String} {v : Value}
    (h : s.reply name = .now (.ok v)) : s.state? name = some (.evaluated v) := by
  unfold reply at h
  cases hf : s.find? name with
  | none => simp [hf] at h
  | some b =>
    cases hb : b.state with
    | inProgress => simp [hf, hb] at h
    | evaluated w =>
      simp only [hf, hb, Reply.now.injEq, Except.ok.injEq] at h
      rw [state?, hf, Option.map_some, hb, h]
    | unevaluated =>
      simp only [hf, hb] at h
      split at h <;> simp at h

/-! ## The law -/

/-- At every moment of every run the bindings in progress are exactly the ones whose bodies are
running, and no body runs twice. A request is itself a cycle exactly for those: it then invokes
nothing, takes no step and changes nothing. Between the calls of the client no binding is in
progress. The bodies and the client are any programs, so they may catch errors and go on. -/
theorem in_progress_is_under_way (limits : Limits)
    (client : Program T R (Except EvalError Value)) {m : Moment T R} {log : List String}
    (h : Run behaviour (.initial limits client) log m) :
    (∀ n, m.store.state? n = some .inProgress ↔ n ∈ m.active) ∧ m.active.Nodup ∧
      (∀ n context, m.store.value behaviour context n = (.error (.cycle n), m.store) ↔
        n ∈ m.active) ∧
      (m.calls = [] → ∀ n, m.store.state? n ≠ some .inProgress) := by
  have hm := disciplined_run h
  refine ⟨hm.mem_iff, hm.nodup, fun n context => ?_, fun hcalls n => ?_⟩
  · rw [← hm.mem_iff, ← reply_eq_cycle]
    exact ⟨reply_of_value_same, fun hr => value_of_now behaviour hr context⟩
  · rw [Ne, hm.mem_iff, Moment.active, hcalls]
    simp

/-- The moment at which the body of a binding asks for the binding itself. -/
def selfish : Moment (Option String) Unit :=
  ⟨.value () "a" .done, [⟨"a", .done⟩], (((empty {}).define "a" (some "a")).2).start "a"⟩

/-- A binding that asks for itself is under way when it does, and is answered by a cycle. -/
theorem in_progress_is_under_way_selfish :
    Run aliases (.initial {} (.define "a" (some "a") fun _ => .value () "a" .done)) ["a"] selfish ∧
      "a" ∈ selfish.active ∧
      selfish.store.value aliases () "a" = (.error (.cycle "a"), selfish.store) := by
  have henter : Step aliases ⟨.value () "a" .done, [], ((empty {}).define "a" (some "a")).2⟩ ["a"]
      selfish := @Step.enter _ _ aliases () "a" .done [] _ (some "a") rfl
  have hrun : Run aliases (.initial {} (.define "a" (some "a") fun _ => .value () "a" .done))
      ["a"] selfish := ((Run.here _).step .define).step henter
  have hactive : "a" ∈ selfish.active := by simp [selfish, Moment.active]
  obtain ⟨_, _, hcycle, _⟩ := in_progress_is_under_way {} _ hrun
  exact ⟨hrun, hactive, (hcycle "a" ()).mpr hactive⟩

end LazyConfig.Store
