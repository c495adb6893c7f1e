-- Evaluation as a relation between stages. At a stage of a forcing there is a store, and a number
-- of compound values that the forcing has made. An evaluation succeeds from one stage to another,
-- or fails.
-- Main statements: when each operation that evaluation is put together of succeeds, and when it
-- fails.
import LazyConfig.Document.Eval
import LazyConfig.Proofs.Engine.Execution

namespace LazyConfig

open Store Evaluation

/-- A stage of the forcing of a binding: the store, and how many compound values were made. -/
structure Stage where
  store : Store Suspension
  made : Nat

variable {α β : Type} {host : Host} {p p' p'' : Stage} {a a' : α} {e e' : EvalError}

namespace Evaluation

/-- From the one stage the evaluation leads to the other one, with a result. -/
def Succeeds (host : Host) (x : Evaluation α) (p : Stage) (a : α) (p' : Stage) : Prop :=
  p.store.exec (behaviour host) (x p.made).run = (.ok (a, p'.made), p'.store)

/-- From the stage the evaluation leads to an error. -/
def Fails (host : Host) (x : Evaluation α) (p : Stage) (e : EvalError) : Prop :=
  (p.store.exec (behaviour host) (x p.made).run).1 = .error e

/-! ## Nothing and errors -/

theorem succeeds_pure : Succeeds host (pure a) p a' p' ↔ a' = a ∧ p' = p := by
  obtain ⟨s, made⟩ := p
  obtain ⟨s', made'⟩ := p'
  show ((.ok (a, made), s) : Except EvalError (α × Nat) × Store Suspension) =
      (.ok (a', made'), s') ↔ _
  simp only [Prod.mk.injEq, Except.ok.injEq, Stage.mk.injEq]
  constructor
  · rintro ⟨⟨rfl, rfl⟩, rfl⟩
    exact ⟨rfl, rfl, rfl⟩
  · rintro ⟨rfl, rfl, rfl⟩
    exact ⟨⟨rfl, rfl⟩, rfl⟩

theorem not_fails_pure : ¬ Fails host (pure a) p e := nofun

theorem not_succeeds_throw : ¬ Succeeds host (throw e : Evaluation α) p a p' := nofun

theorem fails_throw : Fails host (throw e : Evaluation α) p e' ↔ e' = e := by
  show (.error e : Except EvalError (α × Nat)) = .error e' ↔ _
  rw [Except.error.injEq, eq_comm]

/-! ## One after another -/

section

variable {x : Evaluation α} {f : α → Evaluation β} {b : β}

theorem exec_evaluation_bind (behaviour : Behaviour Suspension Nat) (x : Evaluation α)
    (f : α → Evaluation β) (count : Nat) (s : Store Suspension) :
    s.exec behaviour ((x >>= f) count).run =
      match s.exec behaviour (x count).run with
      | (.ok (a, made), s') => s'.exec behaviour (f a made).run
      | (.error e, s') => (.error e, s') := by
  show s.exec behaviour (x count >>= fun found => f found.1 found.2).run = _
  rw [exec_run_bind]
  rcases s.exec behaviour (x count).run with ⟨r, s'⟩
  cases r <;> rfl

theorem succeeds_bind : Succeeds host (x >>= f) p b p'' ↔
    ∃ a p', Succeeds host x p a p' ∧ Succeeds host (f a) p' b p'' := by
  unfold Succeeds
  rw [exec_evaluation_bind]
  rcases hx : p.store.exec (behaviour host) (x p.made).run with ⟨_ | ⟨a, made⟩, s⟩
  · simp
  · constructor
    · exact fun h => ⟨a, ⟨s, made⟩, rfl, h⟩
    · rintro ⟨a', ⟨s', made'⟩, heq, h⟩
      cases heq
      exact h

theorem fails_bind : Fails host (x >>= f) p e ↔
    Fails host x p e ∨ ∃ a p', Succeeds host x p a p' ∧ Fails host (f a) p' e := by
  unfold Succeeds Fails
  rw [exec_evaluation_bind]
  rcases hx : p.store.exec (behaviour host) (x p.made).run with ⟨_ | ⟨a, made⟩, s⟩
  · simp
  · constructor
    · exact fun h => .inr ⟨a, ⟨s, made⟩, rfl, h⟩
    · rintro (h | ⟨a', ⟨s', made'⟩, heq, h⟩)
      · cases h
      · cases heq
        exact h

end

/-- An evaluation that goes on without an error, if it goes on, fails as the one before does. -/
theorem fails_bind_left {x : Evaluation α} {f : α → Evaluation β}
    (hf : ∀ a p', ¬ Fails host (f a) p' e) : Fails host (x >>= f) p e ↔ Fails host x p e := by
  rw [fails_bind]
  exact or_iff_left fun ⟨a, p', _, h⟩ => hf a p' h

/-- What goes on after a success fails as what comes then. -/
theorem fails_bind_right {x : Evaluation α} {f : α → Evaluation β} (h : Succeeds host x p a p') :
    Fails host (x >>= f) p e ↔ Fails host (f a) p' e := by
  unfold Succeeds at h
  unfold Fails
  rw [exec_evaluation_bind, h]

/-! ## Places -/

section

variable {x : Evaluation α} {span : Span}

theorem exec_locating (span : Span) (x : Evaluation α) (p : Stage) :
    p.store.exec (behaviour host) (locating span x p.made).run =
      let out := p.store.exec (behaviour host) (x p.made).run
      (out.1.mapError fun e => e.located span, out.2) :=
  exec_adapt (behaviour host) (fun e => e.located span) (x p.made) p.store

theorem fails_locating : Fails host (locating span x) p e ↔
    ∃ e', Fails host x p e' ∧ e = e'.located span := by
  unfold Fails
  rw [exec_locating]
  rcases p.store.exec (behaviour host) (x p.made).run with ⟨r, s⟩
  cases r with
  | error e' =>
    show Except.error (e'.located span) = .error e ↔
        ∃ e₀, Except.error e' = .error e₀ ∧ e = e₀.located span
    simp [eq_comm]
  | ok found => exact iff_of_false nofun nofun

theorem succeeds_settle {r : Except RuntimeCause α} :
    Succeeds host (settle span r) p a p' ↔ r = .ok a ∧ p' = p := by
  cases r with
  | ok a' =>
    rw [settle, succeeds_pure, Except.ok.injEq, eq_comm]
  | error cause => simp [settle, fail, not_succeeds_throw]

theorem fails_settle {r : Except RuntimeCause α} : Fails host (settle span r) p e ↔
    ∃ cause, r = .error cause ∧ e = .runtime ⟨cause, some span⟩ := by
  cases r with
  | ok a' => simp [settle, not_fails_pure]
  | error cause =>
    rw [settle, fail, fails_throw]
    simp

end

/-! ## What the store does -/

theorem succeeds_fresh {frame : Frame} {id : Identity} : Succeeds host (fresh frame) p id p' ↔
    id = ⟨frame.owner, p.made⟩ ∧ p' = ⟨p.store, p.made + 1⟩ := by
  obtain ⟨s', made'⟩ := p'
  show (((.ok (⟨frame.owner, p.made⟩, p.made + 1), p.store) :
    Except EvalError (Identity × Nat) × Store Suspension) = (.ok (id, made'), s')) ↔ _
  simp only [Prod.mk.injEq, Except.ok.injEq, Stage.mk.injEq]
  constructor
  · rintro ⟨⟨rfl, rfl⟩, rfl⟩
    exact ⟨rfl, rfl, rfl⟩
  · rintro ⟨rfl, rfl, rfl⟩
    exact ⟨⟨rfl, rfl⟩, rfl⟩

theorem not_fails_fresh {frame : Frame} : ¬ Fails host (fresh frame) p e := nofun

/-- Making a compound value does not fail. -/
theorem not_fails_compound {frame : Frame} {v : Identity → α} :
    ¬ Fails host (fresh frame >>= fun id => pure (v id)) p e :=
  fun h => not_fails_fresh ((fails_bind_left fun _ _ => not_fails_pure).mp h)

section

variable {x : Attempt α}

theorem exec_lift (behaviour : Behaviour Suspension Nat) (x : Attempt α) (count : Nat)
    (s : Store Suspension) :
    s.exec behaviour ((liftM x : Evaluation α) count).run =
      let out := s.exec behaviour x.run
      (out.1.map (·, count), out.2) := by
  show s.exec behaviour (x >>= fun a => pure (a, count)).run = _
  rw [exec_run_bind]
  rcases s.exec behaviour x.run with ⟨r, s'⟩
  cases r <;> rfl

/-- An attempt inside an evaluation runs first, and makes no value. -/
theorem exec_lift_bind (behaviour : Behaviour Suspension Nat) (x : Attempt α) (f : α → Evaluation β)
    (count : Nat) (s : Store Suspension) :
    s.exec behaviour ((liftM x >>= f : Evaluation β) count).run =
      match s.exec behaviour x.run with
      | (.ok a, s') => s'.exec behaviour (f a count).run
      | (.error e, s') => (.error e, s') := by
  rw [exec_evaluation_bind, exec_lift]
  rcases s.exec behaviour x.run with ⟨r, s'⟩
  cases r <;> rfl

theorem succeeds_lift : Succeeds host (liftM x) p a p' ↔
    p.store.exec (behaviour host) x.run = (.ok a, p'.store) ∧ p'.made = p.made := by
  unfold Succeeds
  rw [exec_lift]
  rcases p.store.exec (behaviour host) x.run with ⟨r, s⟩
  cases r with
  | error e => simp [Except.map]
  | ok found => simp [Except.map, and_right_comm, eq_comm]

theorem fails_lift : Fails host (liftM x : Evaluation α) p e ↔
    (p.store.exec (behaviour host) x.run).1 = .error e := by
  unfold Fails
  rw [exec_lift]
  rcases p.store.exec (behaviour host) x.run with ⟨r, s⟩
  cases r <;> simp [Except.map]

end

theorem fails_lift_bind {x : Attempt α} {f : α → Attempt β} :
    Fails host (liftM (x >>= f) : Evaluation β) p e ↔ Fails host (liftM x : Evaluation α) p e ∨
      ∃ a p', Succeeds host (liftM x) p a p' ∧ Fails host (liftM (f a) : Evaluation β) p' e := by
  rw [liftM_bind]
  exact fails_bind

theorem succeeds_value {left : Nat} {path : String} {v : Value} :
    Succeeds host (liftM (Attempt.value left path)) p v p' ↔
      p.store.value (behaviour host) left path = (.ok v, p'.store) ∧ p'.made = p.made :=
  succeeds_lift

theorem fails_value {left : Nat} {path : String} :
    Fails host (liftM (Attempt.value left path) : Evaluation Value) p e ↔
      (p.store.value (behaviour host) left path).1 = .error e :=
  fails_lift

/-- An attempt that only looks at the store leads to the same stage. -/
theorem succeeds_look {x : Attempt α} (h : p.store.exec (behaviour host) x.run = (.ok a, p.store)) :
    Succeeds host (liftM x) p a' p' ↔ a' = a ∧ p' = p := by
  obtain ⟨s', made'⟩ := p'
  rw [succeeds_lift, h]
  simp only [Prod.mk.injEq, Except.ok.injEq]
  constructor
  · rintro ⟨⟨rfl, rfl⟩, rfl⟩
    exact ⟨rfl, rfl⟩
  · rintro ⟨rfl, heq⟩
    cases heq
    exact ⟨⟨rfl, rfl⟩, rfl⟩

theorem succeeds_contains {path : String} {found : Bool} :
    Succeeds host (liftM (Attempt.contains path)) p found p' ↔
      found = p.store.contains path ∧ p' = p :=
  succeeds_look rfl

end Evaluation

/-- The path of the name in the first of the scopes that binds it. -/
def Store.scoped? (s : Store Suspension) (name : String) (scopes : List String) : Option String :=
  (scopes.map fun scope => childPath scope name).find? s.contains

/-- Looking for a name changes nothing. -/
theorem run_findScoped (behaviour : Behaviour Suspension Nat) (s : Store Suspension) (name : String)
    (scopes : List String) :
    s.exec behaviour (findScoped name scopes).run = (.ok (s.scoped? name scopes), s) := by
  induction scopes with
  | nil => rfl
  | cons scope outer ih =>
    have hcontains : s.exec behaviour (Attempt.contains (childPath scope name)).run =
        (.ok (s.contains (childPath scope name)), s) := rfl
    rw [findScoped, exec_run_bind, hcontains, Store.scoped?, List.map_cons, List.find?_cons]
    cases hbound : s.contains (childPath scope name) with
    | true => rfl
    | false => exact ih

namespace Evaluation

theorem succeeds_findScoped {name : String} {scopes : List String} {found : Option String} :
    Succeeds host (liftM (findScoped name scopes)) p found p' ↔
      found = p.store.scoped? name scopes ∧ p' = p :=
  succeeds_look (run_findScoped (behaviour host) p.store name scopes)

theorem succeeds_mergeSpread {span : Span} {entries merged : Object Value} {found : Value} :
    Succeeds host (mergeSpread span entries found) p merged p' ↔
      ∃ more, found.object? = some more ∧ merged = entries.extend more ∧ p' = p := by
  cases found with
  | object id more =>
    rw [mergeSpread, succeeds_pure]
    simp [Value.object?]
  | _ => simp [mergeSpread, fail, not_succeeds_throw, Value.object?]

theorem fails_mergeSpread {span : Span} {entries : Object Value} {found : Value} :
    Fails host (mergeSpread span entries found) p e ↔
      found.object? = none ∧ e = .runtime ⟨.typeMismatch (.spread found.typeName), some span⟩ := by
  cases found with
  | object id more => simp [mergeSpread, not_fails_pure, Value.object?]
  | _ => simp [mergeSpread, fail, fails_throw, Value.object?]

end Evaluation

/-! ## Bodies of bindings -/

theorem exec_body_succ (s : Store Suspension) (b : Suspension) (left : Nat) :
    s.exec (behaviour host) (behaviour host b (left + 1)) =
      let out := s.exec (behaviour host) (evalTask host left (innerOf host left) b 0).run
      (out.1.map (·.1), out.2) := by
  have hbody : behaviour host b (left + 1) =
      (evalTask host left (innerOf host left) b 0 >>= fun p => pure p.1 : Attempt Value).run := rfl
  rw [hbody, exec_run_bind]
  rcases s.exec (behaviour host) (evalTask host left (innerOf host left) b 0).run with ⟨r, s'⟩
  cases r <;> rfl

/-- The body of a binding succeeds as its task does. -/
theorem succeeds_body {s s' : Store Suspension} {b : Suspension} {left : Nat} {v : Value} :
    s.exec (behaviour host) (behaviour host b (left + 1)) = (.ok v, s') ↔
      ∃ made, Succeeds host (evalTask host left (innerOf host left) b) ⟨s, 0⟩ v ⟨s', made⟩ := by
  unfold Succeeds
  rw [exec_body_succ]
  rcases s.exec (behaviour host) (evalTask host left (innerOf host left) b 0).run with
    ⟨_ | ⟨w, made⟩, s₁⟩
  · simp [Except.map]
  · simp [Except.map]

theorem fails_body {s : Store Suspension} {b : Suspension} {left : Nat} :
    (s.exec (behaviour host) (behaviour host b (left + 1))).1 = .error e ↔
      Fails host (evalTask host left (innerOf host left) b) ⟨s, 0⟩ e := by
  unfold Fails
  rw [exec_body_succ]
  rcases s.exec (behaviour host) (evalTask host left (innerOf host left) b 0).run with ⟨r, s'⟩
  cases r <;> simp [Except.map]

end LazyConfig
