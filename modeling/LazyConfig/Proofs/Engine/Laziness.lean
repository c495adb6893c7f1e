-- Bodies that are not invoked. A run sees of a binding whether it is there and in which state, and
-- of its body only what it does when it is invoked. So a run that never invokes a body is the same
-- run with any other body in its place.
-- Main statement: a request is answered alike, and leaves the same store, whatever body a binding
-- has that it does not invoke.
import LazyConfig.Proofs.Engine.Permanence

namespace LazyConfig.Store

variable {T R : Type} {behaviour : Behaviour T R} {s : Store T} {name : String} {body : T}

/-! ## Stores with another body -/

/-- The store with another body for a binding. -/
def withBody (s : Store T) (name : String) (body : T) : Store T :=
  { s with bindings := s.bindings.map fun b => if b.name = name then { b with body } else b }

theorem find?_withBody (s : Store T) (name : String) (body : T) (other : String) :
    (s.withBody name body).find? other =
      (s.find? other).map fun b => if other = name then { b with body } else b := by
  have hkeep : ((fun b : Binding T => decide (b.name = other)) ∘
      fun b => if b.name = name then { b with body } else b) = fun b =>
        decide (b.name = other) := by
    funext b
    simp only [Function.comp]
    split <;> rfl
  simp only [find?, withBody, List.find?_map, hkeep]
  cases hf : s.bindings.find? fun b => decide (b.name = other) with
  | none => rfl
  | some b =>
    have hb : b.name = other := by simpa using List.find?_some hf
    simp [hb]

@[simp] theorem contains_withBody (s : Store T) (name : String) (body : T) (other : String) :
    (s.withBody name body).contains other = s.contains other := by
  simp [contains_eq, find?_withBody]

/-- The body and the state of a binding are set apart from one another. -/
theorem mark_withBody (s : Store T) (name : String) (body : T) (other : String)
    (state : BindingState) :
    (s.withBody name body).mark other state = (s.mark other state).withBody name body := by
  simp only [mark, withBody, List.map_map]
  congr 2
  funext b
  simp only [Function.comp]
  by_cases hname : b.name = name
  · by_cases hother : b.name = other
    · simp only [if_pos hname, if_pos hother]
    · simp only [if_pos hname, if_neg hother]
  · by_cases hother : b.name = other
    · simp only [if_neg hname, if_pos hother]
    · simp only [if_neg hname, if_neg hother]

theorem start_withBody (s : Store T) (name : String) (body : T) (other : String) :
    (s.withBody name body).start other = (s.start other).withBody name body :=
  congrArg (fun marked : Store T =>
    { marked with stepsLeft := s.stepsLeft - 1, invoked := other :: s.invoked })
    (mark_withBody s name body other .inProgress)

theorem finish_withBody (s : Store T) (name : String) (body : T) (other : String)
    (result : Except EvalError Value) :
    (s.withBody name body).finish other result =
      ((s.finish other result).1, (s.finish other result).2.withBody name body) := by
  have hbytes : (s.withBody name body).bytesLeft = s.bytesLeft := rfl
  cases result with
  | error e => exact congrArg (Prod.mk _) (mark_withBody s name body other .unevaluated)
  | ok v =>
    by_cases h : s.bytesLeft < v.cost
    · simp only [finish, hbytes, if_pos h, mark_withBody]
    · simp only [finish, hbytes, if_neg h, mark_withBody]
      rfl

/-- A name that is taken is not defined anew, so the other body stays. -/
theorem define_withBody (h : s.contains name = true) (body : T) (other : String) (body' : T) :
    (s.withBody name body).define other body' =
      ((s.define other body').1, (s.define other body').2.withBody name body) := by
  by_cases hc : s.contains other = true
  · rw [define_taken hc, define_taken ((contains_withBody s name body other).trans hc)]
  · have hne : other ≠ name := fun heq => hc (heq ▸ h)
    unfold define
    rw [contains_withBody, if_neg hc, if_neg hc]
    simp [withBody, hne]

/-- Only a request that runs the body itself is taken otherwise. -/
theorem reply_withBody (s : Store T) (name : String) (body : T) (other : String) :
    (s.withBody name body).reply other =
      match s.reply other with
      | .now r => .now r
      | .run body' => .run (if other = name then body else body') := by
  have hsteps : (s.withBody name body).stepsLeft = s.stepsLeft := rfl
  have hlimits : (s.withBody name body).limits = s.limits := rfl
  unfold reply
  rw [find?_withBody, hsteps, hlimits]
  cases s.find? other with
  | none => rfl
  | some b =>
    have hstate : (if other = name then { b with body } else b : Binding T).state = b.state := by
      split <;> rfl
    have hbody : (if other = name then { b with body } else b : Binding T).body =
        if other = name then body else b.body := by
      split <;> rfl
    simp only [Option.map_some, hstate, hbody]
    cases b.state with
    | evaluated v => rfl
    | inProgress => rfl
    | unevaluated =>
      by_cases h0 : s.stepsLeft = 0
      · simp only [if_pos h0]
      · simp only [if_neg h0]

/-! ## Runs -/

theorem contains_define (h : s.contains name = true) (other : String) (body' : T) :
    (s.define other body').2.contains name = true :=
  (extends_define s other body').contains h

theorem contains_finish (s : Store T) (other : String) (result : Except EvalError Value) :
    (s.finish other result).2.contains name = s.contains name := by
  rcases finish_cases s other result with ⟨e, h⟩ | ⟨v, _, _, h⟩
  · rw [h]
    exact contains_mark s other .unevaluated name
  · rw [h]
    exact contains_mark s other (.evaluated v) name

/-- After the run of a program the binding is still there, and unless its body is among those that
the run invoked, the run is the same with any other body in its place. -/
structure Spares {α : Type} (behaviour : Behaviour T R) (name : String) (p : Program T R α)
    (s : Store T) : Prop where
  bound : (exec behaviour p s).2.contains name = true
  alike : ∃ log, (exec behaviour p s).2.invoked = log ++ s.invoked ∧
    (name ∉ log → ∀ body, exec behaviour p (s.withBody name body) =
      ((exec behaviour p s).1, (exec behaviour p s).2.withBody name body))

/-- What a forcing does, if its body spares the binding. -/
theorem Spares.forcing {context : R} {other : String} {body' : T} (hr : s.reply other = .run body')
    (h : Spares behaviour name (behaviour body' context) (s.start other)) :
    (s.value behaviour context other).2.contains name = true ∧
      ∃ log, (s.value behaviour context other).2.invoked = log ++ s.invoked ∧
        (name ∉ log → ∀ body, (s.withBody name body).value behaviour context other =
          ((s.value behaviour context other).1,
            (s.value behaviour context other).2.withBody name body)) := by
  obtain ⟨log, hlog, halike⟩ := h.alike
  rw [value_of_run behaviour hr]
  refine ⟨(contains_finish _ other _).trans h.bound, log ++ [other], ?_, ?_⟩
  · rw [invoked_finish, hlog]
    simp [start]
  · intro hnot body
    have hne : other ≠ name := fun heq => hnot (by simp [heq])
    have hr' : (s.withBody name body).reply other = .run body' := by
      rw [reply_withBody, hr]
      exact congrArg Reply.run (if_neg hne)
    rw [value_of_run behaviour hr', start_withBody,
      halike (fun hmem => hnot (List.mem_append_left _ hmem)) body]
    exact finish_withBody _ name body other _

/-- Every run spares every binding. -/
theorem spares_exec {α : Type} (behaviour : Behaviour T R) (p : Program T R α) (s : Store T)
    (h : s.contains name = true) : Spares behaviour name p s := by
  revert h
  refine exec_induction behaviour
    (motive := fun {α} p s => s.contains name = true → Spares behaviour name p s)
    ?done ?define ?contains ?now ?forced p s
  case done => exact fun a s h => ⟨h, [], rfl, fun _ _ => rfl⟩
  case define =>
    intro α other body' next s ih h
    obtain ⟨hbound, log, hlog, halike⟩ := ih (contains_define h other body')
    refine ⟨hbound, log, hlog.trans (by rw [invoked_define]), fun hnot body => ?_⟩
    rw [exec_define, define_withBody h]
    exact halike hnot body
  case contains =>
    intro α other next s ih h
    obtain ⟨hbound, log, hlog, halike⟩ := ih h
    refine ⟨hbound, log, hlog, fun hnot body => ?_⟩
    rw [exec_contains, contains_withBody]
    exact halike hnot body
  case now =>
    intro α context other next s r hr ih h
    obtain ⟨hbound, log, hlog, halike⟩ := ih h
    have hvalue : exec behaviour (.value context other next) s = exec behaviour (next r) s := by
      rw [exec_value, value_of_now behaviour hr]
    refine ⟨by rw [hvalue]; exact hbound, log, by rw [hvalue]; exact hlog, fun hnot body => ?_⟩
    have hr' : (s.withBody name body).reply other = .now r := by rw [reply_withBody, hr]
    rw [hvalue, exec_value, value_of_now behaviour hr']
    exact halike hnot body
  case forced =>
    intro α context other next s body' hr ihbody ihrest h
    have hstart : (s.start other).contains name = true :=
      (contains_mark s other .inProgress name).trans h
    obtain ⟨hkept, inner, hinner, hbody⟩ := (ihbody hstart).forcing hr
    obtain ⟨hbound, log, hlog, halike⟩ := ihrest hkept
    refine ⟨hbound, log ++ inner, ?_, fun hnot body => ?_⟩
    · rw [exec_value, hlog, hinner, List.append_assoc]
    · rw [List.mem_append, not_or] at hnot
      rw [exec_value, hbody hnot.2 body]
      exact halike hnot.1 body

/-! ## A body that is not invoked is not looked at -/

/-- What a request invokes is added to the list of invoked bodies. If the body of a binding is not
among it, then with any other body in its place the request has the same answer, and leaves the same
store but for that body: the same quotas, the same states and the same definitions. -/
theorem a_body_not_invoked_does_not_matter (behaviour : Behaviour T R) (s : Store T) (context : R)
    (path : String) (hname : s.contains name = true) :
    ∃ log, (s.value behaviour context path).2.invoked = log ++ s.invoked ∧
      (name ∉ log → ∀ body,
        (s.withBody name body).value behaviour context path =
          ((s.value behaviour context path).1,
            (s.value behaviour context path).2.withBody name body)) :=
  (spares_exec behaviour (.value context path .done) s hname).alike

/-- Two bindings that are fine, and one that asks for itself. -/
def besideSelfish : Store (Option String) :=
  ((((empty {}).define "a" (some "c")).2.define "b" (some "b")).2.define "c" none).2

/-- The body of the one that asks for itself can be exchanged for one that does not, and the others
do not notice. -/
theorem a_body_not_invoked_does_not_matter_selfish :
    besideSelfish.contains "b" = true ∧
      (besideSelfish.value aliases () "a").2.invoked = ["c", "a"] ++ besideSelfish.invoked ∧
      (besideSelfish.value aliases () "b").1 = .error (.cycle "b") ∧
      ((besideSelfish.withBody "b" none).value aliases () "b").1 = .ok .null ∧
      (besideSelfish.withBody "b" none).value aliases () "a" =
        ((besideSelfish.value aliases () "a").1,
          (besideSelfish.value aliases () "a").2.withBody "b" none) := by
  have hbound : besideSelfish.contains "b" = true := by decide
  have hinvoked : (besideSelfish.value aliases () "a").2.invoked =
      ["c", "a"] ++ besideSelfish.invoked := by decide
  obtain ⟨log, hlog, halike⟩ :=
    a_body_not_invoked_does_not_matter aliases besideSelfish () "a" hbound
  have hsame : log = ["c", "a"] := List.append_cancel_right (hlog.symm.trans hinvoked)
  exact ⟨hbound, hinvoked, rfl, rfl, halike (by rw [hsame]; decide) none⟩

end LazyConfig.Store
