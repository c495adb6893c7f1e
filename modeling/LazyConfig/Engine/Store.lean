-- The store of bindings. A binding is forced at most once with success; forcing takes a step
-- and charges the cost of the result, and neither is given back. While its body runs a
-- binding is in progress, and asking for it then is a cycle.
-- Main statements: what is found under a name after each operation.
import LazyConfig.Engine.Program
import LazyConfig.Value.Cost

namespace LazyConfig

/-- What may be used up: forcings, and the cost of all results together. -/
structure Limits where
  steps : Nat := 10000
  bytes : Nat := 1000000
  deriving DecidableEq, Repr

/-- How far a binding is. -/
inductive BindingState where
  | unevaluated
  | inProgress
  | evaluated (v : Value)

structure Binding (T : Type) where
  name : String
  state : BindingState
  body : T

/-- What is left of the quotas, the bindings, to be found by name, the names in the order of
definition, and the names of all bindings whose bodies were run, the latest first. -/
structure Store (T : Type) where
  limits : Limits
  stepsLeft : Nat
  bytesLeft : Nat
  bindings : List (Binding T)
  names : List String
  invoked : List String

/-- How the store takes a request: it answers at once, or a body has to be run first. -/
inductive Reply (T : Type) where
  | now (result : Except EvalError Value)
  | run (body : T)

namespace Store

variable {T R α : Type}

/-! ## Bindings -/

def empty (limits : Limits) : Store T := ⟨limits, limits.steps, limits.bytes, [], [], []⟩

def find? (s : Store T) (name : String) : Option (Binding T) :=
  s.bindings.find? fun b => b.name = name

def contains (s : Store T) (name : String) : Bool := s.bindings.any fun b => b.name = name

def state? (s : Store T) (name : String) : Option BindingState := (s.find? name).map (·.state)

/-- Adds a binding, unless its name is taken. -/
def define (s : Store T) (name : String) (body : T) : Except EvalError Unit × Store T :=
  if s.contains name then (.error (.duplicateBinding name), s)
  else
    (.ok (), { s with
      bindings := s.bindings ++ [⟨name, .unevaluated, body⟩]
      names := s.names ++ [name] })

/-- The store with a binding in a state. -/
def mark (s : Store T) (name : String) (state : BindingState) : Store T :=
  { s with bindings := s.bindings.map fun b => if b.name = name then { b with state } else b }

/-! ## Forcing -/

/-- What a request for a binding leads to. Steps matter only if its body has to be run. -/
def reply (s : Store T) (name : String) : Reply T :=
  match s.find? name with
  | none => .now (.error (.unknownBinding name))
  | some b =>
    match b.state with
    | .evaluated v => .now (.ok v)
    | .inProgress => .now (.error (.cycle name))
    | .unevaluated =>
      if s.stepsLeft = 0 then .now (.error (.timeLimit s.limits.steps)) else .run b.body

/-- Takes a step for a binding and marks it as in progress. -/
def start (s : Store T) (name : String) : Store T :=
  { s.mark name .inProgress with
    stepsLeft := s.stepsLeft - 1
    invoked := name :: s.invoked }

/-- Ends the forcing of a binding. A result is charged and kept, if its cost is left; after a
failure the binding is as before. -/
def finish (s : Store T) (name : String) (result : Except EvalError Value) :
    Except EvalError Value × Store T :=
  match result with
  | .error e => (.error e, s.mark name .unevaluated)
  | .ok v =>
    let needed := v.cost
    if s.bytesLeft < needed then
      (.error (.spaceLimit needed s.bytesLeft), s.mark name .unevaluated)
    else
      (.ok v, { s.mark name (.evaluated v) with bytesLeft := s.bytesLeft - needed })

/-- Runs a program, with `force` for the values it asks for. -/
def run (force : Store T → R → String → Except EvalError Value × Store T) :
    Program T R α → Store T → α × Store T
  | .done result, s => (result, s)
  | .define name body next, s =>
    let (r, s) := s.define name body
    run force (next r) s
  | .contains name next, s => run force (next (s.contains name)) s
  | .value context name next, s =>
    let (r, s) := force s context name
    run force (next r) s

/-- What the bodies of bindings do: the program of a body in a context. -/
abbrev Behaviour (T R : Type) := T → R → Program T R (Except EvalError Value)

/-- The value of a binding, forced with at most `fuel` forcings inside one another. As each takes
a step, the steps left are fuel enough. -/
def force (behaviour : Behaviour T R) (fuel : Nat) (s : Store T) (context : R) (name : String) :
    Except EvalError Value × Store T :=
  match s.reply name, fuel with
  | .now result, _ => (result, s)
  | .run _, 0 => (.error (.timeLimit s.limits.steps), s)
  | .run body, fuel + 1 =>
    let (result, s) := run (force behaviour fuel) (behaviour body context) (s.start name)
    s.finish name result

/-- The value of a binding. -/
def value (behaviour : Behaviour T R) (s : Store T) (context : R) (name : String) :
    Except EvalError Value × Store T :=
  force behaviour s.stepsLeft s context name

/-- Runs a program on a store. -/
def exec (behaviour : Behaviour T R) (p : Program T R α) (s : Store T) : α × Store T :=
  run (value behaviour) p s

/-! ## What is found under a name -/

theorem find?_name {s : Store T} {name : String} {b : Binding T} (h : s.find? name = some b) :
    b.name = name := by
  simpa using List.find?_some h

theorem contains_eq (s : Store T) (name : String) : s.contains name = (s.find? name).isSome := by
  rw [contains, find?, Bool.eq_iff_iff, List.find?_isSome, List.any_eq_true]

theorem find?_of_state? {s : Store T} {name : String} {state : BindingState}
    (h : s.state? name = some state) : ∃ b, s.find? name = some b ∧ b.state = state := by
  simpa [state?] using h

theorem find?_empty (limits : Limits) (name : String) :
    (empty limits : Store T).find? name = none :=
  rfl

theorem define_taken {s : Store T} {name : String} (h : s.contains name = true) (body : T) :
    s.define name body = (.error (.duplicateBinding name), s) := by
  simp [define, h]

theorem find?_define {s : Store T} {name : String} (h : s.contains name = false) (body : T)
    (other : String) :
    (s.define name body).2.find? other =
      if other = name then some ⟨name, .unevaluated, body⟩ else s.find? other := by
  have hnone : s.find? name = none := by simpa [contains_eq] using h
  have hfind : (s.define name body).2.find? other =
      (s.find? other).or (if other = name then some ⟨name, .unevaluated, body⟩ else none) := by
    simp [define, h, find?, List.find?_singleton, eq_comm]
  rw [hfind]
  by_cases ho : other = name
  · simp [ho, hnone]
  · simp [ho]

/-- A definition leaves what was there. -/
theorem find?_define_of_some {s : Store T} {other : String} {b : Binding T}
    (h : s.find? other = some b) (name : String) (body : T) :
    (s.define name body).2.find? other = some b := by
  by_cases hc : s.contains name = true
  · rw [define_taken hc, h]
  · rw [find?_define (by simpa using hc), h]
    split
    · next ho =>
      rw [ho] at h
      simp [contains_eq, h] at hc
    · rfl

theorem find?_mark (s : Store T) (name : String) (state : BindingState) (other : String) :
    (s.mark name state).find? other =
      (s.find? other).map fun b => if other = name then { b with state } else b := by
  have hkeep : ((fun b : Binding T => decide (b.name = other)) ∘
      fun b => if b.name = name then { b with state } else b) =
        fun b => decide (b.name = other) := by
    funext b
    simp only [Function.comp]
    split <;> rfl
  simp only [find?, mark, List.find?_map, hkeep]
  cases hf : s.bindings.find? fun b => decide (b.name = other) with
  | none => rfl
  | some b =>
    have hb : b.name = other := by simpa using List.find?_some hf
    simp [hb]

@[simp] theorem state?_mark (s : Store T) (name : String) (state : BindingState) (other : String) :
    (s.mark name state).state? other =
      if other = name then (s.state? other).map fun _ => state else s.state? other := by
  rw [state?, find?_mark, state?]
  by_cases h : other = name
  · simp [h, Function.comp_def]
  · simp [h]

@[simp] theorem contains_mark (s : Store T) (name : String) (state : BindingState)
    (other : String) : (s.mark name state).contains other = s.contains other := by
  simp [contains_eq, find?_mark]

@[simp] theorem state?_start (s : Store T) (name other : String) :
    (s.start name).state? other = (s.mark name .inProgress).state? other := rfl

/-! ## What a request and the end of a forcing do -/

/-- A body is run only for a binding that is there, is not evaluated yet, and for which a step is
left. -/
theorem reply_eq_run {s : Store T} {name : String} {body : T} :
    s.reply name = .run body ↔
      ∃ b, s.find? name = some b ∧ b.state = .unevaluated ∧ b.body = body ∧ s.stepsLeft ≠ 0 := by
  unfold reply
  cases hf : s.find? name with
  | none => simp
  | some b =>
    cases hb : b.state with
    | evaluated v => simp [hb]
    | inProgress => simp [hb]
    | unevaluated =>
      by_cases hs : s.stepsLeft = 0
      · simp [hs, hb]
      · simp [hs, hb]

theorem reply_unknown {s : Store T} {name : String} (h : s.find? name = none) :
    s.reply name = .now (.error (.unknownBinding name)) := by
  simp [reply, h]

theorem reply_evaluated {s : Store T} {name : String} {v : Value}
    (h : s.state? name = some (.evaluated v)) : s.reply name = .now (.ok v) := by
  obtain ⟨b, hf, hb⟩ := find?_of_state? h
  simp [reply, hf, hb]

theorem reply_inProgress {s : Store T} {name : String}
    (h : s.state? name = some .inProgress) : s.reply name = .now (.error (.cycle name)) := by
  obtain ⟨b, hf, hb⟩ := find?_of_state? h
  simp [reply, hf, hb]

theorem reply_unevaluated {s : Store T} {name : String}
    (h : s.state? name = some .unevaluated) (hs : s.stepsLeft = 0) :
    s.reply name = .now (.error (.timeLimit s.limits.steps)) := by
  obtain ⟨b, hf, hb⟩ := find?_of_state? h
  simp [reply, hf, hb, hs]

/-- A forcing ends in one of two ways: it fails and leaves the binding as it was before, or its
result is charged and kept. -/
theorem finish_cases (s : Store T) (name : String) (result : Except EvalError Value) :
    (∃ e, s.finish name result = (.error e, s.mark name .unevaluated)) ∨
    (∃ v, result = .ok v ∧ v.cost ≤ s.bytesLeft ∧
      s.finish name result =
        (.ok v, { s.mark name (.evaluated v) with bytesLeft := s.bytesLeft - v.cost })) := by
  cases result with
  | error e => exact Or.inl ⟨e, rfl⟩
  | ok v =>
    by_cases h : s.bytesLeft < v.cost
    · exact Or.inl ⟨.spaceLimit v.cost s.bytesLeft, by simp [finish, h]⟩
    · exact Or.inr ⟨v, rfl, by omega, by simp [finish, h]⟩

end Store

end LazyConfig
