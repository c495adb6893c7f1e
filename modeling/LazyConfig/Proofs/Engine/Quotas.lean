-- What is left of the quotas, and what was used up: a step for each body that was invoked, and
-- the cost of each value that is kept. Nothing else is charged and nothing is given back, in the
-- middle of a run as at its end.
-- Main statement: both accounts add up at every moment of every run.
import LazyConfig.Proofs.Engine.Permanence

namespace LazyConfig

/-- What the value of a binding was charged. -/
def BindingState.charge : BindingState → Nat
  | .evaluated v => v.cost
  | _ => 0

namespace Store

variable {T R : Type} {behaviour : Behaviour T R}

/-! ## The values that are kept -/

def charges : List (Binding T) → Nat
  | [] => 0
  | b :: rest => b.state.charge + charges rest

/-- What all values that are kept cost together. -/
def charged (s : Store T) : Nat := charges s.bindings

theorem charges_append (bindings more : List (Binding T)) :
    charges (bindings ++ more) = charges bindings + charges more := by
  induction bindings with
  | nil => simp [charges]
  | cons b rest ih => simp [charges, ih, Nat.add_assoc]

theorem charged_define (s : Store T) (name : String) (body : T) :
    (s.define name body).2.charged = s.charged := by
  unfold define
  split
  · rfl
  · simp [charged, charges_append, charges, BindingState.charge]

/-- Among bindings of different names, a mark changes the charge of one. -/
theorem charges_mark {bindings : List (Binding T)} (hnodup : (bindings.map (·.name)).Nodup)
    {b : Binding T} (hb : b ∈ bindings) (state : BindingState) :
    charges (bindings.map fun c => if c.name = b.name then { c with state } else c) +
        b.state.charge = charges bindings + state.charge := by
  induction bindings with
  | nil => simp at hb
  | cons c rest ih =>
    rw [List.map_cons, List.nodup_cons] at hnodup
    obtain ⟨hnot, hrest⟩ := hnodup
    simp only [List.map_cons, charges]
    rcases List.mem_cons.mp hb with hbc | hbrest
    · subst hbc
      have hsame : (rest.map fun c => if c.name = b.name then { c with state } else c) =
          rest.map id := by
        apply List.map_congr_left
        intro c hc
        have hne : c.name ≠ b.name := fun hcb => hnot (hcb ▸ List.mem_map_of_mem hc)
        rw [if_neg hne]
        rfl
      rw [List.map_id] at hsame
      rw [hsame, if_pos rfl]
      simp only
      omega
    · have hne : c.name ≠ b.name := fun hcb => hnot (hcb ▸ List.mem_map_of_mem hbrest)
      have hsum := ih hrest hbrest
      rw [if_neg hne]
      omega

theorem charged_mark {s : Store T} (h : Tidy s) {name : String} {old : BindingState}
    (hs : s.state? name = some old) (state : BindingState) :
    (s.mark name state).charged + old.charge = s.charged + state.charge := by
  obtain ⟨b, hf, hb⟩ := find?_of_state? hs
  have hmem : b ∈ s.bindings := List.mem_of_find?_eq_some hf
  have hnodup : (s.bindings.map (·.name)).Nodup := by
    rw [h.listed]
    exact h.nodup
  have hsum := charges_mark hnodup hmem state
  rw [find?_name hf, hb] at hsum
  exact hsum

/-! ## The invariant -/

/-- Both accounts add up, when the bodies of `log` were invoked. -/
structure Balanced (limits : Limits) (s : Store T) (log : List String) : Prop where
  limits_eq : s.limits = limits
  steps : s.stepsLeft + log.length = limits.steps
  bytes : s.bytesLeft + s.charged = limits.bytes

theorem limits_define (s : Store T) (name : String) (body : T) :
    (s.define name body).2.limits = s.limits ∧
      (s.define name body).2.bytesLeft = s.bytesLeft := by
  unfold define
  split
  · exact ⟨rfl, rfl⟩
  · exact ⟨rfl, rfl⟩

theorem Balanced.define {limits : Limits} {s : Store T} {log : List String}
    (h : Balanced limits s log) (name : String) (body : T) :
    Balanced limits (s.define name body).2 log := by
  obtain ⟨hlimits, hbytes⟩ := limits_define s name body
  refine ⟨hlimits.trans h.limits_eq, ?_, ?_⟩
  · rw [stepsLeft_define]
    exact h.steps
  · rw [charged_define, hbytes]
    exact h.bytes

theorem Balanced.start {limits : Limits} {s : Store T} {log : List String}
    (h : Balanced limits s log) (ht : Tidy s) {name : String} {body : T}
    (hr : s.reply name = .run body) : Balanced limits (s.start name) (log ++ [name]) := by
  obtain ⟨b, hf, hb, _, hne⟩ := reply_eq_run.mp hr
  have hstate : s.state? name = some .unevaluated := by simp [state?, hf, hb]
  have hcharge : (s.mark name .inProgress).charged = s.charged := by
    have hmark := charged_mark ht hstate .inProgress
    simp only [BindingState.charge] at hmark
    omega
  refine ⟨h.limits_eq, ?_, ?_⟩
  · have hleft : (s.start name).stepsLeft = s.stepsLeft - 1 := rfl
    have := h.steps
    rw [hleft, List.length_append, List.length_singleton]
    omega
  · have hsame : (s.start name).charged = (s.mark name .inProgress).charged := rfl
    have hleft : (s.start name).bytesLeft = s.bytesLeft := rfl
    rw [hsame, hcharge, hleft]
    exact h.bytes

/-- The end of a forcing charges what it keeps. -/
theorem Balanced.finish {limits : Limits} {s : Store T} {log : List String}
    (h : Balanced limits s log) (ht : Tidy s) {name : String}
    (hs : s.state? name = some .inProgress) (result : Except EvalError Value) :
    Balanced limits (s.finish name result).2 log := by
  have hbytes := h.bytes
  rcases finish_cases s name result with ⟨e, hf⟩ | ⟨v, _, hcost, hf⟩
  · have hmark := charged_mark ht hs .unevaluated
    simp only [BindingState.charge] at hmark
    rw [hf]
    refine ⟨h.limits_eq, h.steps, ?_⟩
    change s.bytesLeft + (s.mark name .unevaluated).charged = limits.bytes
    omega
  · have hmark := charged_mark ht hs (.evaluated v)
    simp only [BindingState.charge] at hmark
    rw [hf]
    refine ⟨h.limits_eq, h.steps, ?_⟩
    change s.bytesLeft - v.cost + (s.mark name (.evaluated v)).charged = limits.bytes
    omega

/-- What a step needs to keep the accounts: different names, and that a body that ends is under
way. -/
theorem balanced_step {limits : Limits} {m m' : Moment T R} {log new : List String}
    (h : Step behaviour m new m') (ht : Tidy m.store) (hd : Disciplined m.store m.active)
    (hm : Balanced limits m.store log) : Balanced limits m'.store (log ++ new) := by
  cases h with
  | define =>
    rw [List.append_nil]
    exact hm.define _ _
  | contains =>
    rw [List.append_nil]
    exact hm
  | answer =>
    rw [List.append_nil]
    exact hm
  | enter hr => exact hm.start ht hr
  | leave =>
    rw [List.append_nil]
    exact hm.finish ht ((hd.mem_iff _).mpr (by simp [Moment.active])) _

theorem balanced_run {limits : Limits} {m m' : Moment T R} {log log' : List String}
    (h : Run behaviour m log' m') (ht : Tidy m.store) (hd : Disciplined m.store m.active)
    (hm : Balanced limits m.store log) : Balanced limits m'.store (log ++ log') := by
  induction h with
  | here =>
    rw [List.append_nil]
    exact hm
  | step hrun hs ih =>
    rw [← List.append_assoc]
    exact balanced_step hs (hrun.keeps tidy_step ht) (hrun.keeps disciplined_step hd) ih

theorem balanced_empty (limits : Limits) : Balanced limits (empty limits : Store T) [] :=
  ⟨rfl, rfl, rfl⟩

theorem bytesLeft_step_le {m m' : Moment T R} {new : List String}
    (h : Step behaviour m new m') : m'.store.bytesLeft ≤ m.store.bytesLeft := by
  cases h with
  | define => exact Nat.le_of_eq (limits_define _ _ _).2
  | contains => exact Nat.le_refl _
  | answer => exact Nat.le_refl _
  | enter => exact Nat.le_refl _
  | @leave r call _ s =>
    rcases finish_cases s call.name r with ⟨e, hf⟩ | ⟨v, _, _, hf⟩
    · rw [hf]
      exact Nat.le_refl _
    · rw [hf]
      exact Nat.sub_le _ _

/-! ## Failures -/

/-- A body that was invoked and fails, or whose result costs too much, leaves its binding as it
was. -/
theorem state?_value_error {s s' : Store T} {active : List String} (h : Disciplined s active)
    {name : String} {body : T} (hr : s.reply name = .run body) {context : R} {e : EvalError}
    (hv : s.value behaviour context name = (.error e, s')) :
    s'.state? name = some .unevaluated := by
  have hbody := (disciplined_exec behaviour (behaviour body context) (h.start hr)).1
  have hstate := (hbody.mem_iff name).mpr List.mem_cons_self
  rw [value_of_run behaviour hr] at hv
  simp only at hv
  rcases finish_cases _ name (exec behaviour (behaviour body context) (s.start name)).1
    with ⟨_, hf⟩ | ⟨_, _, _, hf⟩
  · rw [hf] at hv
    rw [← (Prod.mk.inj hv).2, state?_mark, if_pos rfl, hstate]
    rfl
  · rw [hf] at hv
    cases hv

/-- A request is out of steps only for a binding that would need one, when none is left. -/
theorem stepsLeft_of_timeLimit {s : Store T} {name : String} {k : Nat}
    (h : s.reply name = .now (.error (.timeLimit k))) : s.stepsLeft = 0 := by
  unfold reply at h
  cases hf : s.find? name with
  | none => simp [hf] at h
  | some b =>
    cases hb : b.state with
    | evaluated v => simp [hf, hb] at h
    | inProgress => simp [hf, hb] at h
    | unevaluated =>
      by_cases hs : s.stepsLeft = 0
      · exact hs
      · simp [hf, hb, hs] at h

/-! ## The law -/

variable (behaviour)

/-- At every moment of every run, the steps that are gone are the bodies that were invoked, and
the cost that is gone is that of the values that are kept; so neither quota ever grows. A forcing
that fails keeps its step and those of the forcings inside it, and the charges of the values kept
inside it, while its own binding is left without a value and so without a charge. Once a request
runs out of steps, every later one for a binding without a value does that is not under way. -/
theorem quotas_add_up (limits : Limits) (client : Program T R (Except EvalError Value))
    {m m' : Moment T R} {log log' : List String}
    (before : Run behaviour (.initial limits client) log m) (after : Run behaviour m log' m') :
    (m.store.stepsLeft + log.length = limits.steps ∧
      m.store.bytesLeft + m.store.charged = limits.bytes) ∧
    (m'.store.stepsLeft ≤ m.store.stepsLeft ∧ m'.store.bytesLeft ≤ m.store.bytesLeft) ∧
    (∀ context n body e s', m.store.reply n = .run body →
      m.store.value behaviour context n = (.error e, s') →
        s'.state? n = some .unevaluated ∧
        s'.bytesLeft + s'.charged = m.store.bytesLeft + m.store.charged ∧
        ∃ inner, s'.stepsLeft + (n :: inner).length = m.store.stepsLeft ∧
          Run behaviour ⟨.value context n .done, m.calls, m.store⟩ (n :: inner)
            ⟨.done (.error e), m.calls, s'⟩) ∧
    (∀ context n k, m.store.value behaviour context n = (.error (.timeLimit k), m.store) →
      ∀ context' n', m'.store.state? n' = some .unevaluated →
        m'.store.value behaviour context' n' =
          (.error (.timeLimit limits.steps), m'.store)) := by
  have htidy := before.keeps tidy_step (tidy_empty limits)
  have hdisc := disciplined_run before
  have hnow := balanced_run before (tidy_empty limits) (disciplined_empty limits)
    (balanced_empty limits)
  have hlater := balanced_run after htidy hdisc hnow
  rw [List.nil_append] at hnow hlater
  have hsteps : m'.store.stepsLeft ≤ m.store.stepsLeft := by
    have h := hlater.steps
    have h' := hnow.steps
    rw [List.length_append] at h
    omega
  refine ⟨⟨hnow.steps, hnow.bytes⟩, ⟨hsteps, ?_⟩, ?_, ?_⟩
  · exact after.keeps (fun hs h => Nat.le_trans (bytesLeft_step_le hs) h) (Nat.le_refl _)
  · intro context n body e s' hr hv
    obtain ⟨inner, hrun⟩ := run_value behaviour hr context m.calls
    have hend := balanced_run hrun htidy hdisc hnow
    simp only [hv] at hrun hend
    refine ⟨state?_value_error hdisc hr hv, ?_, inner, ?_, hrun⟩
    · rw [hend.bytes, hnow.bytes]
    · have h := hend.steps
      have h' := hnow.steps
      rw [List.length_append] at h
      omega
  · intro context n k hv context' n' hstate
    have hleft := stepsLeft_of_timeLimit (reply_of_value_same hv)
    have hreply := reply_unevaluated hstate (by omega)
    rw [hlater.limits_eq] at hreply
    exact value_of_now behaviour hreply context'

/-- A client that asks twice for a binding whose value costs more than is left by then. -/
def insistent : Program (Option String) Unit (Except EvalError Value) :=
  .define "b" none fun _ => .define "a" (some "b") fun _ => .value () "a" fun _ =>
    .value () "a" .done

/-- The client before its first request. -/
def firstRequest : Moment (Option String) Unit :=
  ⟨.value () "a" fun _ => .value () "a" .done, [], ⟨⟨2, 1⟩, 2, 1,
    [⟨"b", .unevaluated, none⟩, ⟨"a", .unevaluated, some "b"⟩], ["b", "a"], []⟩⟩

/-- The client after its first request: the binding inside has its value, the one that was asked
for has not. -/
def secondRequest : Moment (Option String) Unit :=
  ⟨.value () "a" .done, [], ⟨⟨2, 1⟩, 0, 0,
    [⟨"b", .evaluated .null, none⟩, ⟨"a", .unevaluated, some "b"⟩], ["b", "a"], ["b", "a"]⟩⟩

theorem run_insistent : Run aliases (.initial ⟨2, 1⟩ insistent) [] firstRequest := by
  have hdefine := (Run.here (.initial ⟨2, 1⟩ insistent)).step (@Step.define _ _ aliases _ _ _ _ _)
  exact hdefine.step (@Step.define _ _ aliases _ _ _ _ _)

theorem run_firstRequest : Run aliases firstRequest ["a", "b"] secondRequest := by
  have hasked := (Run.here firstRequest).step
    (@Step.enter _ _ aliases () "a" _ _ _ (some "b") rfl)
  have hinner := hasked.step (@Step.enter _ _ aliases () "b" _ _ _ none rfl)
  have hkept := hinner.step (@Step.leave _ _ aliases (.ok .null) _ _ _)
  exact hkept.step (@Step.leave _ _ aliases (.ok .null) _ _ _)

/-- Both steps and the cost of the value inside stay taken, and the second request is out of
steps. -/
theorem quotas_add_up_after_a_failure :
    Run aliases (.initial ⟨2, 1⟩ insistent) ["a", "b"] secondRequest ∧
      firstRequest.store.value aliases () "a" = (.error (.spaceLimit 1 0), secondRequest.store) ∧
      secondRequest.store.bytesLeft + secondRequest.store.charged = 1 ∧
      secondRequest.store.value aliases () "a" =
        (.error (.timeLimit 2), secondRequest.store) := by
  have hvalue : firstRequest.store.value aliases () "a" =
      (.error (.spaceLimit 1 0), secondRequest.store) := rfl
  obtain ⟨_, _, hfail, _⟩ := quotas_add_up aliases ⟨2, 1⟩ insistent run_insistent run_firstRequest
  obtain ⟨hstate, hcost, _⟩ := hfail () "a" (some "b") _ _ rfl hvalue
  have hboth := run_insistent.trans run_firstRequest
  obtain ⟨_, _, _, hsteps⟩ := quotas_add_up aliases ⟨2, 1⟩ insistent hboth (Run.here _)
  exact ⟨hboth, hvalue, hcost, hsteps () "a" 2 rfl () "a" hstate⟩

end Store

end LazyConfig
