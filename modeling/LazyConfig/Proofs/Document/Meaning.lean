-- The meaning of a binding: what it evaluates to where no value is kept, no quota counts and
-- the whole library is at hand. How deep evaluation nests is limited, but the limit only matters
-- while it is too small, so a meaning is what stays from some limit on.
-- Main statements: a binding means one thing, and meanings follow the evaluation.
import LazyConfig.Document.Eval
import LazyConfig.Proofs.Document.Library

namespace LazyConfig

variable {T R α β : Type}

/-- The result of a program for given answers. -/
def Program.answer (bound : String → Bool) (ask : String → Except EvalError Value) :
    Program T R α → α
  | .done a => a
  | .define _ _ next => answer bound ask (next (.ok ()))
  | .contains name next => answer bound ask (next (bound name))
  | .value _ name next => answer bound ask (next (ask name))

theorem Program.answer_bind (bound : String → Bool) (ask : String → Except EvalError Value)
    (p : Program T R α) (f : α → Program T R β) :
    (p >>= f).answer bound ask = (f (p.answer bound ask)).answer bound ask := by
  induction p with
  | done a => rfl
  | define name body next ih => exact ih _
  | contains name next ih => exact ih _
  | value context name next ih => exact ih _

namespace Library

/-! ## Results by given answers -/

/-- What a computation results in by given answers, with the whole library at hand. -/
noncomputable def given (L : Library) (ask : String → Except EvalError Value) (x : Attempt α) :
    Except EvalError α :=
  x.run.answer L.bound ask

section

variable {L : Library} (ask : String → Except EvalError Value)

theorem given_bind (x : Attempt α) (f : α → Attempt β) :
    L.given ask (x >>= f) =
      match L.given ask x with
      | .ok a => L.given ask (f a)
      | .error e => .error e := by
  rw [given, ExceptT.run_bind, Program.answer_bind, given]
  cases x.run.answer L.bound ask <;> rfl

theorem given_adapt (place : EvalError → EvalError) (x : Attempt α) :
    L.given ask (ExceptT.adapt place x) = (L.given ask x).mapError place :=
  Program.answer_bind L.bound ask x.run _

theorem given_contains (path : String) :
    L.given ask (Attempt.contains path) = .ok (L.bound path) := rfl

theorem given_checkPaths (earlier paths : List String) :
    L.given ask (Attempt.checkPaths earlier paths) =
      match firstTaken L.bound earlier paths with
      | none => .ok ()
      | some path => .error (.duplicateBinding path) := by
  induction paths generalizing earlier with
  | nil => rfl
  | cons path later ih =>
    rw [Attempt.checkPaths, given_bind, given_contains, firstTaken]
    by_cases h : (L.bound path || earlier.contains path) = true
    · simp only [h, if_true]
      rfl
    · simp only [h, Bool.false_eq_true, if_false]
      exact ih (path :: earlier)

theorem given_loadContent (name path : String) (bytes : Bytes) :
    L.given ask (Attempt.loadContent L.host name path bytes) =
      if L.bound name = true then .ok ()
      else
        match parse L.host.maxParseDepth bytes with
        | .ok root => L.given ask (Attempt.loadDocument name root)
        | .error e => .error (.document path e) := by
  rw [Attempt.loadContent, given_bind, given_contains]
  by_cases h : L.bound name = true
  · simp only [h, if_true]
    rfl
  · simp only [h, Bool.false_eq_true, if_false]
    cases parse L.host.maxParseDepth bytes <;> rfl

end

/-! ## Levels -/

/-- What a binding evaluates to within `k` levels, asked for by the bindings `under`. -/
noncomputable def meaning (L : Library) : Nat → List String → String → Except EvalError Value
  | 0, _, _ => .error L.host.overflow
  | k + 1, under, name =>
    if name ∈ under then .error (.cycle name)
    else
      match L.offer? name with
      | none => .error (.unknownBinding name)
      | some b => (behaviour L.host b (k + 1)).answer L.bound (L.meaning k (name :: under))

/-- What a computation results in by meanings within `k` levels. -/
noncomputable def reading (L : Library) (k : Nat) (under : List String) (x : Attempt α) :
    Except EvalError α :=
  x.run.answer L.bound (L.meaning k under)

variable {L : Library} {under : List String}

theorem reading_eq (k : Nat) (x : Attempt α) :
    L.reading k under x = L.given (L.meaning k under) x := rfl

theorem reading_bind (k : Nat) (x : Attempt α) (f : α → Attempt β) :
    L.reading k under (x >>= f) =
      match L.reading k under x with
      | .ok a => L.reading k under (f a)
      | .error e => .error e := given_bind _ x f

/-! ## What stays from some level on -/

/-- From some levels on, inside and around, the computation results in `r`. -/
def Settles (L : Library) (under : List String) (x : Nat → Attempt α) (r : Except EvalError α) :
    Prop :=
  ∃ enough, ∀ k ≥ enough, ∀ j ≥ enough, L.reading k under (x j) = r

/-- From some level on, the binding evaluates to `r`. -/
def Means (L : Library) (under : List String) (name : String) (r : Except EvalError Value) :
    Prop :=
  ∃ enough, ∀ k ≥ enough, L.meaning k under name = r

/-- A binding means one thing. -/
theorem Means.unique {name : String} {r r' : Except EvalError Value} (h : L.Means under name r)
    (h' : L.Means under name r') : r = r' := by
  obtain ⟨n, hn⟩ := h
  obtain ⟨n', hn'⟩ := h'
  rw [← hn (max n n') (Nat.le_max_left n n'), hn' (max n n') (Nat.le_max_right n n')]

theorem Settles.of_reading {x : Attempt α} {r : Except EvalError α}
    (h : ∀ k, L.reading k under x = r) : L.Settles under (fun _ => x) r :=
  ⟨0, fun k _ _ _ => h k⟩

theorem Settles.pure (a : α) : L.Settles under (fun _ => (Pure.pure a : Attempt α)) (.ok a) :=
  .of_reading fun _ => rfl

theorem Settles.throw (e : EvalError) :
    L.Settles under (fun _ => (MonadExcept.throw e : Attempt α)) (.error e) :=
  .of_reading fun _ => rfl

theorem Settles.bind {x : Nat → Attempt α} {f : Nat → α → Attempt β} {a : α}
    {r : Except EvalError β} (hx : L.Settles under x (.ok a))
    (hf : L.Settles under (fun j => f j a) r) : L.Settles under (fun j => x j >>= f j) r := by
  obtain ⟨n, hn⟩ := hx
  obtain ⟨n', hn'⟩ := hf
  refine ⟨max n n', fun k hk j hj => ?_⟩
  rw [reading_bind, hn k (by omega) j (by omega)]
  exact hn' k (by omega) j (by omega)

theorem Settles.bind_error {x : Nat → Attempt α} {e : EvalError}
    (hx : L.Settles under x (.error e)) (f : Nat → α → Attempt β) :
    L.Settles under (fun j => x j >>= f j) (.error e) := by
  obtain ⟨n, hn⟩ := hx
  refine ⟨n, fun k hk j hj => ?_⟩
  rw [reading_bind, hn k hk j hj]

/-- What settles also settles one level further in. -/
theorem Settles.inside {x : Nat → Attempt α} {r : Except EvalError α} (hx : L.Settles under x r)
    {y : Nat → Attempt α} (hy : ∀ j, y (j + 1) = x j) : L.Settles under y r := by
  obtain ⟨n, hn⟩ := hx
  refine ⟨n + 1, fun k hk j hj => ?_⟩
  obtain ⟨i, rfl⟩ : ∃ i, j = i + 1 := ⟨j - 1, by omega⟩
  rw [hy]
  exact hn k (by omega) i (by omega)

theorem Settles.adapt {x : Nat → Attempt α} {r : Except EvalError α} (hx : L.Settles under x r)
    (place : EvalError → EvalError) :
    L.Settles under (fun j => ExceptT.adapt place (x j)) (r.mapError place) := by
  obtain ⟨n, hn⟩ := hx
  refine ⟨n, fun k hk j hj => ?_⟩
  rw [← hn k hk j hj]
  exact given_adapt _ place (x j)

/-! ## Bindings -/

theorem settles_value_iff {name : String} {r : Except EvalError Value} :
    L.Settles under (fun j => Attempt.value j name) r ↔ L.Means under name r := by
  constructor
  · rintro ⟨n, hn⟩
    exact ⟨n, fun k hk => hn k hk n (Nat.le_refl n)⟩
  · rintro ⟨n, hn⟩
    exact ⟨n, fun k hk _ _ => hn k hk⟩

theorem means_cycle {name : String} (h : name ∈ under) :
    L.Means under name (.error (.cycle name)) := by
  refine ⟨1, fun k hk => ?_⟩
  obtain ⟨i, rfl⟩ : ∃ i, k = i + 1 := ⟨k - 1, by omega⟩
  rw [meaning, if_pos h]

/-- What a binding of the library evaluates to, at each level. -/
def task (L : Library) (b : Suspension) (level : Nat) : Attempt Value :=
  (evalTask L.host level (innerOf L.host level) b).run' 0

/-- A binding means what its body settles to. -/
theorem Settles.means {name : String} {b : Suspension} (hb : L.offer? name = some b)
    (hnot : name ∉ under) {r : Except EvalError Value}
    (h : L.Settles (name :: under) (L.task b) r) : L.Means under name r := by
  obtain ⟨n, hn⟩ := h
  refine ⟨n + 1, fun k hk => ?_⟩
  obtain ⟨i, rfl⟩ : ∃ i, k = i + 1 := ⟨k - 1, by omega⟩
  rw [meaning, if_neg hnot, hb]
  exact hn i (by omega) i (by omega)

end Library

end LazyConfig
