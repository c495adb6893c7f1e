-- How programs run on a store, without a count of fuel: the steps left are always fuel enough,
-- so the value of a binding is what its body gives on the store in which it was started.
-- Main statements: one equation for each thing that a program does, and the induction that
-- every law of a run follows by.
import LazyConfig.Engine.Store

namespace LazyConfig.Store

variable {T R α β : Type}

/-! ## Steps are not given back -/

theorem stepsLeft_define (s : Store T) (name : String) (body : T) :
    (s.define name body).2.stepsLeft = s.stepsLeft := by
  unfold define
  split <;> rfl

theorem stepsLeft_finish (s : Store T) (name : String) (result : Except EvalError Value) :
    (s.finish name result).2.stepsLeft = s.stepsLeft := by
  rcases finish_cases s name result with ⟨e, h⟩ | ⟨v, _, _, h⟩
  · rw [h]; rfl
  · rw [h]; rfl

theorem stepsLeft_run_le {f : Store T → R → String → Except EvalError Value × Store T}
    (hf : ∀ s context name, (f s context name).2.stepsLeft ≤ s.stepsLeft)
    (p : Program T R α) (s : Store T) : (run f p s).2.stepsLeft ≤ s.stepsLeft := by
  induction p generalizing s with
  | done a => exact Nat.le_refl _
  | define name body next ih =>
    have h := ih (s.define name body).1 (s.define name body).2
    rw [stepsLeft_define] at h
    exact h
  | contains name next ih => exact ih _ s
  | value context name next ih => exact Nat.le_trans (ih _ _) (hf s context name)

theorem stepsLeft_force_le (behaviour : Behaviour T R) (fuel : Nat) (s : Store T) (context : R)
    (name : String) : (force behaviour fuel s context name).2.stepsLeft ≤ s.stepsLeft := by
  induction fuel generalizing s context name with
  | zero =>
    unfold force
    cases s.reply name <;> exact Nat.le_refl _
  | succ fuel ih =>
    unfold force
    cases s.reply name with
    | now r => exact Nat.le_refl _
    | run body =>
      simp only [stepsLeft_finish]
      have h := stepsLeft_run_le ih (behaviour body context) (s.start name)
      exact Nat.le_trans h (Nat.sub_le _ _)

/-! ## Fuel -/

/-- Two ways to force that agree on stores with at most `m` steps give the same runs there. -/
theorem run_congr {f g : Store T → R → String → Except EvalError Value × Store T} {m : Nat}
    (hle : ∀ s context name, (f s context name).2.stepsLeft ≤ s.stepsLeft)
    (h : ∀ s context name, s.stepsLeft ≤ m → f s context name = g s context name)
    (p : Program T R α) (s : Store T) (hs : s.stepsLeft ≤ m) : run f p s = run g p s := by
  induction p generalizing s with
  | done a => rfl
  | define name body next ih =>
    exact ih (s.define name body).1 (s.define name body).2 (by rw [stepsLeft_define]; exact hs)
  | contains name next ih => exact ih _ s hs
  | value context name next ih =>
    unfold run
    rw [← h s context name hs]
    exact ih _ _ (Nat.le_trans (hle s context name) hs)

/-- All fuel from the steps left on is the same. -/
theorem force_congr (behaviour : Behaviour T R) {fuel fuel' : Nat} {s : Store T}
    (h : s.stepsLeft ≤ fuel) (h' : s.stepsLeft ≤ fuel') (context : R) (name : String) :
    force behaviour fuel s context name = force behaviour fuel' s context name := by
  induction fuel generalizing fuel' s context name with
  | zero =>
    have hs : s.stepsLeft = 0 := by omega
    unfold force
    cases hr : s.reply name with
    | now r => rfl
    | run body =>
      obtain ⟨_, _, _, _, hne⟩ := reply_eq_run.mp hr
      exact absurd hs hne
  | succ fuel ih =>
    unfold force
    cases hr : s.reply name with
    | now r => rfl
    | run body =>
      obtain ⟨_, _, _, _, hne⟩ := reply_eq_run.mp hr
      cases fuel' with
      | zero => omega
      | succ fuel' =>
        have hstart : (s.start name).stepsLeft ≤ min fuel fuel' := by
          have : (s.start name).stepsLeft = s.stepsLeft - 1 := rfl
          omega
        have hrun : run (force behaviour fuel) (behaviour body context) (s.start name) =
            run (force behaviour fuel') (behaviour body context) (s.start name) := by
          apply run_congr (stepsLeft_force_le behaviour fuel) _ _ _ hstart
          intro s1 context1 name1 h1
          exact ih (by omega) (by omega) context1 name1
        simp only [hrun]

/-! ## What a program does, one operation at a time -/

variable (behaviour : Behaviour T R)

theorem value_of_now {s : Store T} {name : String} {r : Except EvalError Value}
    (h : s.reply name = .now r) (context : R) : s.value behaviour context name = (r, s) := by
  unfold value force
  rw [h]

/-- The value of a binding whose body has to be run. -/
theorem value_of_run {s : Store T} {name : String} {body : T} (h : s.reply name = .run body)
    (context : R) :
    s.value behaviour context name =
      let out := exec behaviour (behaviour body context) (s.start name)
      out.2.finish name out.1 := by
  obtain ⟨_, _, _, _, hne⟩ := reply_eq_run.mp h
  obtain ⟨k, hk⟩ := Nat.exists_eq_succ_of_ne_zero hne
  have hrun : run (force behaviour k) (behaviour body context) (s.start name) =
      exec behaviour (behaviour body context) (s.start name) := by
    have hstart : (s.start name).stepsLeft ≤ k := by
      have : (s.start name).stepsLeft = s.stepsLeft - 1 := rfl
      omega
    apply run_congr (stepsLeft_force_le behaviour k) _ _ _ hstart
    intro s1 context1 name1 h1
    exact force_congr behaviour h1 (Nat.le_refl _) context1 name1
  unfold value
  rw [hk]
  unfold force
  simp only [h, hrun]

@[simp] theorem exec_done (a : α) (s : Store T) :
    exec behaviour (.done a : Program T R α) s = (a, s) := rfl

theorem exec_define (name : String) (body : T) (next : Except EvalError Unit → Program T R α)
    (s : Store T) :
    exec behaviour (.define name body next) s =
      exec behaviour (next (s.define name body).1) (s.define name body).2 := rfl

theorem exec_contains (name : String) (next : Bool → Program T R α) (s : Store T) :
    exec behaviour (.contains name next) s = exec behaviour (next (s.contains name)) s := rfl

theorem exec_value (context : R) (name : String)
    (next : Except EvalError Value → Program T R α) (s : Store T) :
    exec behaviour (.value context name next) s =
      exec behaviour (next (s.value behaviour context name).1)
        (s.value behaviour context name).2 := rfl

theorem exec_bind (f : α → Program T R β) (p : Program T R α) (s : Store T) :
    exec behaviour (p.bind f) s =
      exec behaviour (f (exec behaviour p s).1) (exec behaviour p s).2 := by
  induction p generalizing s with
  | done a => rfl
  | define name body next ih => exact ih _ _
  | contains name next ih => exact ih _ _
  | value context name next ih => exact ih _ _

/-! ## Programs that may fail -/

/-- After an error nothing else is done. -/
theorem exec_run_bind (x : ExceptT EvalError (Program T R) α)
    (f : α → ExceptT EvalError (Program T R) β) (s : Store T) :
    exec behaviour (x >>= f).run s =
      match exec behaviour x.run s with
      | (.ok a, s') => exec behaviour (f a).run s'
      | (.error e, s') => (.error e, s') := by
  rw [ExceptT.run_bind, Program.bind_eq, exec_bind]
  rcases exec behaviour x.run s with ⟨r, s'⟩
  cases r <;> rfl

theorem exec_adapt (place : EvalError → EvalError) (x : ExceptT EvalError (Program T R) α)
    (s : Store T) :
    exec behaviour (ExceptT.adapt place x).run s =
      ((exec behaviour x.run s).1.mapError place, (exec behaviour x.run s).2) :=
  exec_bind behaviour _ x.run s

theorem stepsLeft_value_le (s : Store T) (context : R) (name : String) :
    (s.value behaviour context name).2.stepsLeft ≤ s.stepsLeft :=
  stepsLeft_force_le behaviour _ s context name

/-! ## The induction -/

/-- To show something of all runs, show it operation by operation. Where a body has to be run, it
holds of the run of the body, and of what is left after the forcing. -/
theorem exec_induction {motive : ∀ {α : Type}, Program T R α → Store T → Prop}
    (done : ∀ {α} (a : α) s, motive (.done a) s)
    (define : ∀ {α} name body (next : Except EvalError Unit → Program T R α) s,
      motive (next (s.define name body).1) (s.define name body).2 →
        motive (.define name body next) s)
    (contains : ∀ {α} name (next : Bool → Program T R α) s,
      motive (next (s.contains name)) s → motive (.contains name next) s)
    (now : ∀ {α} context name (next : Except EvalError Value → Program T R α) s r,
      s.reply name = .now r → motive (next r) s → motive (.value context name next) s)
    (forced : ∀ {α} context name (next : Except EvalError Value → Program T R α) s body,
      s.reply name = .run body → motive (behaviour body context) (s.start name) →
        motive (next (s.value behaviour context name).1) (s.value behaviour context name).2 →
          motive (.value context name next) s)
    (p : Program T R α) (s : Store T) : motive p s := by
  -- Outer induction on the steps left, which a body never has more of than its forcing began
  -- with; inner induction on the program.
  induction hm : s.stepsLeft using Nat.strongRecOn generalizing α p s with
  | ind m outer =>
    have inner : ∀ {α : Type} (p : Program T R α) (s : Store T), s.stepsLeft ≤ m → motive p s := by
      intro α p
      induction p with
      | done a => intro s _; exact done a s
      | define name body next ih =>
        intro s hs
        exact define name body next s (ih _ _ (by rw [stepsLeft_define]; exact hs))
      | contains name next ih => intro s hs; exact contains name next s (ih _ _ hs)
      | value context name next ih =>
        intro s hs
        cases hr : s.reply name with
        | now r => exact now context name next s r hr (ih _ _ hs)
        | run body =>
          obtain ⟨_, _, _, _, hne⟩ := reply_eq_run.mp hr
          have hlt : (s.start name).stepsLeft < m := by
            have : (s.start name).stepsLeft = s.stepsLeft - 1 := rfl
            omega
          have hafter := Nat.le_trans (stepsLeft_value_le behaviour s context name) hs
          exact forced context name next s body hr (outer _ hlt _ _ rfl) (ih _ _ hafter)
    exact inner p s (Nat.le_of_eq hm)

end LazyConfig.Store
