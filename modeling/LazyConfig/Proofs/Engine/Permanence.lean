-- What a store never takes back: a binding, its place among the names, and a value once it is
-- kept. A value that is kept is given out again for nothing.
-- Main statement: the laws of the store, at every moment of every run.
import LazyConfig.Proofs.Engine.Activation

namespace LazyConfig.Store

variable {T R : Type} {behaviour : Behaviour T R}

/-! ## The names -/

/-- The names are those of the bindings, each once. -/
structure Tidy (s : Store T) : Prop where
  listed : s.bindings.map (·.name) = s.names
  nodup : s.names.Nodup

theorem Tidy.mem_iff {s : Store T} (h : Tidy s) (name : String) :
    name ∈ s.names ↔ s.contains name = true := by
  rw [← h.listed, contains]
  simp

theorem tidy_empty (limits : Limits) : Tidy (empty limits : Store T) := ⟨rfl, List.nodup_nil⟩

theorem Tidy.mark {s : Store T} (h : Tidy s) (name : String) (state : BindingState) :
    Tidy (s.mark name state) := by
  refine ⟨?_, h.nodup⟩
  have hsame : ((·.name) ∘ fun b : Binding T => if b.name = name then { b with state } else b) =
      (·.name) := by
    funext b
    simp only [Function.comp]
    split <;> rfl
  rw [Store.mark, List.map_map, hsame, h.listed]

theorem Tidy.define {s : Store T} (h : Tidy s) (name : String) (body : T) :
    Tidy (s.define name body).2 := by
  by_cases hc : s.contains name = true
  · rw [define_taken hc]
    exact h
  · have hnot : name ∉ s.names := fun hmem => hc ((h.mem_iff name).mp hmem)
    refine ⟨?_, ?_⟩
    · simp [Store.define, hc, h.listed]
    · have hnew : (s.names ++ [name]).Nodup := by
        rw [List.nodup_append]
        refine ⟨h.nodup, by simp, ?_⟩
        intro a ha b hb hab
        rw [List.mem_singleton] at hb
        exact hnot (hb ▸ hab ▸ ha)
      simpa [Store.define, hc] using hnew

theorem Tidy.finish {s : Store T} (h : Tidy s) (name : String)
    (result : Except EvalError Value) : Tidy (s.finish name result).2 := by
  rcases finish_cases s name result with ⟨e, hf⟩ | ⟨v, _, _, hf⟩
  · rw [hf]
    exact h.mark name _
  · rw [hf]
    exact ⟨(h.mark name (.evaluated v)).listed, h.nodup⟩

theorem tidy_step {m m' : Moment T R} {new : List String} (h : Step behaviour m new m')
    (hm : Tidy m.store) : Tidy m'.store := by
  cases h with
  | define => exact hm.define _ _
  | contains => exact hm
  | answer => exact hm
  | @enter _ name => exact ⟨(hm.mark name .inProgress).listed, hm.nodup⟩
  | leave => exact hm.finish _ _

/-! ## Later stores -/

/-- What a later store still has of an earlier one. -/
structure Extends (s s' : Store T) : Prop where
  names : ∃ added, s'.names = s.names ++ added
  body : ∀ n b, s.find? n = some b → ∃ b', s'.find? n = some b' ∧ b'.body = b.body
  value : ∀ n v, s.state? n = some (.evaluated v) → s'.state? n = some (.evaluated v)

theorem Extends.refl (s : Store T) : Extends s s :=
  ⟨⟨[], by simp⟩, fun _ b h => ⟨b, h, rfl⟩, fun _ _ h => h⟩

theorem Extends.trans {s s' s'' : Store T} (h : Extends s s') (h' : Extends s' s'') :
    Extends s s'' := by
  refine ⟨?_, ?_, fun n v hv => h'.value n v (h.value n v hv)⟩
  · obtain ⟨a, ha⟩ := h.names
    obtain ⟨a', ha'⟩ := h'.names
    exact ⟨a ++ a', by rw [ha', ha, List.append_assoc]⟩
  · intro n b hb
    obtain ⟨b', hb', heq⟩ := h.body n b hb
    obtain ⟨b'', hb'', heq'⟩ := h'.body n b' hb'
    exact ⟨b'', hb'', heq'.trans heq⟩

theorem Extends.contains {s s' : Store T} (h : Extends s s') {name : String}
    (hc : s.contains name = true) : s'.contains name = true := by
  rw [contains_eq, Option.isSome_iff_exists] at hc ⊢
  obtain ⟨b, hb⟩ := hc
  obtain ⟨b', hb', _⟩ := h.body name b hb
  exact ⟨b', hb'⟩

theorem extends_define (s : Store T) (name : String) (body : T) :
    Extends s (s.define name body).2 := by
  refine ⟨?_, fun n b hb => ⟨b, find?_define_of_some hb name body, rfl⟩, ?_⟩
  · unfold define
    split
    · exact ⟨[], by simp⟩
    · exact ⟨[name], rfl⟩
  · intro n v hv
    obtain ⟨b, hb, hstate⟩ := find?_of_state? hv
    simp [state?, find?_define_of_some hb, hstate]

/-- A mark takes no value back, if its binding has none. -/
theorem extends_mark (s : Store T) (name : String)
    (h : ∀ v, s.state? name ≠ some (.evaluated v)) (state : BindingState) :
    Extends s (s.mark name state) := by
  refine ⟨⟨[], by simp [mark]⟩, ?_, ?_⟩
  · intro n b hb
    rw [find?_mark, hb]
    refine ⟨_, rfl, ?_⟩
    split <;> rfl
  · intro n v hv
    rw [state?_mark]
    by_cases hn : n = name
    · exact absurd (hn ▸ hv) (h v)
    · rw [if_neg hn, hv]

theorem extends_start {s : Store T} {name : String} {body : T} (h : s.reply name = .run body) :
    Extends s (s.start name) := by
  obtain ⟨b, hf, hb, _, _⟩ := reply_eq_run.mp h
  have hmark := extends_mark s name (by simp [state?, hf, hb]) .inProgress
  exact ⟨hmark.names, hmark.body, hmark.value⟩

theorem extends_finish {s : Store T} {name : String} (h : s.state? name = some .inProgress)
    (result : Except EvalError Value) : Extends s (s.finish name result).2 := by
  have hmark := extends_mark s name (by simp [h])
  rcases finish_cases s name result with ⟨e, hf⟩ | ⟨v, _, _, hf⟩
  · rw [hf]
    exact hmark _
  · rw [hf]
    exact ⟨(hmark (.evaluated v)).names, (hmark (.evaluated v)).body, (hmark (.evaluated v)).value⟩

theorem extends_step {m m' : Moment T R} {new : List String} (h : Step behaviour m new m')
    (hm : Disciplined m.store m.active) : Extends m.store m'.store := by
  cases h with
  | define => exact extends_define _ _ _
  | contains => exact Extends.refl _
  | answer => exact Extends.refl _
  | enter hr => exact extends_start hr
  | leave => exact extends_finish ((hm.mem_iff _).mpr (by simp [Moment.active])) _

theorem extends_run {m m' : Moment T R} {log : List String} (h : Run behaviour m log m')
    (hm : Disciplined m.store m.active) : Extends m.store m'.store := by
  induction h with
  | here => exact Extends.refl _
  | step hrun hs ih => exact ih.trans (extends_step hs (hrun.keeps disciplined_step hm))

/-! ## Whole programs -/

variable (behaviour)

/-- A program leaves in progress what was in progress before it. -/
theorem disciplined_exec {α : Type} (p : Program T R α) {s : Store T} {active : List String}
    (h : Disciplined s active) :
    Disciplined (exec behaviour p s).2 active ∧ Extends s (exec behaviour p s).2 := by
  obtain ⟨log, hrun⟩ := run_exec_bind behaviour p s (fun _ => .done (.ok .null))
    (active.map fun n => ⟨n, .done⟩)
  have hactive : (active.map fun n => (⟨n, .done⟩ : Call T R)).map (·.name) = active := by
    simp [Function.comp_def]
  have hstart : Disciplined s ((active.map fun n => (⟨n, .done⟩ : Call T R)).map (·.name)) := by
    rw [hactive]
    exact h
  have hend := hrun.keeps disciplined_step hstart
  simp only [Moment.active, hactive] at hend
  exact ⟨hend, extends_run hrun hstart⟩

/-- A program leaves the names tidy. -/
theorem tidy_exec {α : Type} (p : Program T R α) {s : Store T} (h : Tidy s) :
    Tidy (exec behaviour p s).2 := by
  obtain ⟨log, hrun⟩ := run_exec_bind behaviour p s (fun _ => .done (.ok .null)) []
  exact hrun.keeps tidy_step h

/-- A request made while nothing is in progress changes a binding that was there in one way only:
it may get its value. -/
theorem find?_value {s : Store T} (h : Disciplined s []) (context : R) (name : String)
    {n : String} {b : Binding T} (hb : s.find? n = some b) :
    ∃ b', (s.value behaviour context name).2.find? n = some b' ∧ b'.body = b.body ∧
      (b'.state = b.state ∨ b.state = .unevaluated ∧ ∃ v, b'.state = .evaluated v) := by
  obtain ⟨hend, hext⟩ := disciplined_exec behaviour (.value context name .done) h
  obtain ⟨b', hb', hbody⟩ := hext.body n b hb
  have hidle : ∀ {s' : Store T} {c : Binding T}, Disciplined s' [] → s'.find? n = some c →
      c.state ≠ .inProgress := by
    intro s' c hs' hc hstate
    have hmem := (hs'.mem_iff n).mp (by simp [state?, hc, hstate])
    simp at hmem
  refine ⟨b', hb', hbody, ?_⟩
  cases hstate : b.state with
  | inProgress => exact absurd hstate (hidle h hb)
  | evaluated v =>
    have hv := hext.value n v (by simp [state?, hb, hstate])
    simp only [state?, hb', Option.map_some, Option.some.injEq] at hv
    exact Or.inl hv
  | unevaluated =>
    cases hstate' : b'.state with
    | inProgress => exact absurd hstate' (hidle hend hb')
    | unevaluated => exact Or.inl rfl
    | evaluated v => exact Or.inr ⟨rfl, v, rfl⟩

/-! ## The law -/

/-- At every moment of every run, and for every later one: a value once kept is kept for good, and
asking for it gives it, invokes nothing and changes nothing, whatever steps are left; names are
only appended, never repeated, and are those of the bindings; and a request of the client, however
it ends, changes a binding that was there only by giving it a value. -/
theorem a_kept_value_stays (limits : Limits) (client : Program T R (Except EvalError Value))
    {m m' : Moment T R} {log log' : List String}
    (before : Run behaviour (.initial limits client) log m) (after : Run behaviour m log' m') :
    (∀ n v, m.store.state? n = some (.evaluated v) →
      m'.store.state? n = some (.evaluated v) ∧
      ∀ context, m'.store.value behaviour context n = (.ok v, m'.store)) ∧
    (∃ added, m'.store.names = m.store.names ++ added) ∧ m'.store.names.Nodup ∧
    (∀ n, n ∈ m'.store.names ↔ m'.store.contains n = true) ∧
    (m'.calls = [] → ∀ context name n b, m'.store.find? n = some b →
      ∃ b', (m'.store.value behaviour context name).2.find? n = some b' ∧ b'.body = b.body ∧
        (b'.state = b.state ∨ b.state = .unevaluated ∧ ∃ v, b'.state = .evaluated v)) := by
  have hext := extends_run after (disciplined_run before)
  have htidy := (before.trans after).keeps tidy_step (tidy_empty limits)
  have hdisc := disciplined_run (before.trans after)
  refine ⟨fun n v hv => ?_, hext.names, htidy.nodup, htidy.mem_iff, ?_⟩
  · have hv' := hext.value n v hv
    exact ⟨hv', fun context => value_of_now behaviour (reply_evaluated hv') context⟩
  · intro hcalls context name n b hb
    rw [Moment.active, hcalls] at hdisc
    exact find?_value behaviour hdisc context name hb

/-- A client with one step, which it takes for the first of two bindings. -/
def thrifty : Program (Option String) Unit (Except EvalError Value) :=
  .define "b" none fun _ => .value () "b" fun _ => .define "a" (some "b") fun _ =>
    .value () "a" .done

/-- The client after its only step. -/
def stepTaken : Moment (Option String) Unit :=
  ⟨.define "a" (some "b") fun _ => .value () "a" .done, [],
    ⟨⟨1, 10⟩, 0, 9, [⟨"b", .evaluated .null, none⟩], ["b"], ["b"]⟩⟩

/-- The client when both bindings are defined. -/
def bothDefined : Moment (Option String) Unit :=
  ⟨.value () "a" .done, [], ⟨⟨1, 10⟩, 0, 9,
    [⟨"b", .evaluated .null, none⟩, ⟨"a", .unevaluated, some "b"⟩], ["b", "a"], ["b"]⟩⟩

theorem run_thrifty : Run aliases (.initial ⟨1, 10⟩ thrifty) ["b"] stepTaken := by
  have hdefine := (Run.here (.initial ⟨1, 10⟩ thrifty)).step
    (@Step.define _ _ aliases _ _ _ _ _)
  have henter := hdefine.step (@Step.enter _ _ aliases () "b" _ _ _ none rfl)
  exact henter.step (@Step.leave _ _ aliases (.ok .null) _ _ _)

theorem run_bothDefined : Run aliases stepTaken [] bothDefined :=
  Run.single (@Step.define _ _ aliases _ _ _ _ _)

/-- When the only step is taken, the binding that took it is still given out. -/
theorem a_kept_value_stays_without_steps :
    Run aliases (.initial ⟨1, 10⟩ thrifty) ["b"] stepTaken ∧ Run aliases stepTaken [] bothDefined ∧
      bothDefined.store.value aliases () "b" = (.ok .null, bothDefined.store) := by
  obtain ⟨hkept, _⟩ := a_kept_value_stays aliases ⟨1, 10⟩ thrifty run_thrifty run_bothDefined
  exact ⟨run_thrifty, run_bothDefined, (hkept "b" .null rfl).2 ()⟩

end LazyConfig.Store
