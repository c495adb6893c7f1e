-- What the bindings of files evaluate to by themselves: by answers from files only, with no values
-- kept and no bindings in progress. A binding that needs its own value runs out of levels then, and
-- has no value at any level.
-- Main statements: what a file gives when it is loaded, and that bindings that need one another in
-- a circle have no value.
import LazyConfig.Proofs.Document.Agreement
import LazyConfig.Proofs.Engine.Contract

namespace LazyConfig

open Store

variable {α β : Type}

/-- The name of a file, or one that goes on after it with a dot. -/
def Host.InFile (host : Host) (name : String) : Prop :=
  ∃ bytes, host.Readable bytes ∧ Below (host.contentName bytes) name

namespace Library

variable {L : Library} {s s' : Store Suspension}

/-! ## Values of bindings -/

/-- What a binding evaluates to within `k` levels. -/
noncomputable def yield (L : Library) : Nat → String → Except EvalError Value
  | 0, _ => .error L.host.overflow
  | k + 1, name =>
    match L.offer? name with
    | none => .error (.unknownBinding name)
    | some b => L.given (L.yield k) (ExceptT.mk (behaviour L.host b (k + 1)))

/-- The binding evaluates to the value, given enough levels, and to no other. -/
structure Yields (L : Library) (name : String) (v : Value) : Prop where
  enough : ∃ enough, ∀ k ≥ enough, L.yield k name = .ok v
  only : ∀ {k w}, L.yield k name = .ok w → w = v

/-- The binding evaluates to nothing, however many levels there are. -/
def Barren (L : Library) (name : String) : Prop := ∀ k v, L.yield k name ≠ .ok v

/-- A value of the first binding takes one of the second, with a level less. -/
def Links (L : Library) (name other : String) : Prop :=
  ∀ {k v}, L.yield (k + 1) name = .ok v → ∃ w, L.yield k other = .ok w

theorem Yields.unique {name : String} {v w : Value} (h : L.Yields name v) (h' : L.Yields name w) :
    v = w := by
  obtain ⟨enough, henough⟩ := h.enough
  exact h'.only (henough enough (Nat.le_refl enough))

theorem Yields.not_barren {name : String} {v : Value} (h : L.Yields name v) : ¬ L.Barren name := by
  obtain ⟨enough, henough⟩ := h.enough
  exact fun hbarren => hbarren enough v (henough enough (Nat.le_refl enough))

/-- What evaluates to a value is bound. -/
theorem Yields.bound {name : String} {v : Value} (h : L.Yields name v) : L.bound name = true := by
  obtain ⟨enough, henough⟩ := h.enough
  have hv := henough (enough + 1) (Nat.le_succ enough)
  unfold yield at hv
  cases hoffer : L.offer? name with
  | none =>
    rw [hoffer] at hv
    cases hv
  | some b => rw [Library.bound, hoffer, Option.isSome_some]

/-- What needs itself, by way of others, evaluates to nothing. -/
theorem barren_of_circle {name : String}
    (h : ∀ {k v}, L.yield k name = .ok v → ∃ k' < k, ∃ w, L.yield k' name = .ok w) :
    L.Barren name := by
  intro k
  induction k using Nat.strongRecOn with
  | ind k ih =>
    intro v hv
    obtain ⟨k', hlt, w, hw⟩ := h hv
    exact ih k' hlt w hw

/-! ## Computations -/

/-- The computation, given enough levels inside and around, results in the value, and never in
another. -/
structure Reads (L : Library) (x : Nat → Attempt α) (a : α) : Prop where
  enough : ∃ enough, ∀ k ≥ enough, ∀ j ≥ enough, L.given (L.yield k) (x j) = .ok a
  only : ∀ {k j b}, L.given (L.yield k) (x j) = .ok b → b = a

/-- The computation never results in a value. -/
def Fails (L : Library) (x : Nat → Attempt α) : Prop := ∀ k j a, L.given (L.yield k) (x j) ≠ .ok a

/-- The computation results in a value only if the binding has one. -/
def Needs (L : Library) (x : Nat → Attempt α) (name : String) : Prop :=
  ∀ {k j a}, L.given (L.yield k) (x j) = .ok a → ∃ v, L.yield k name = .ok v

theorem reads_of_given {x : Attempt α} {a : α} (h : ∀ k, L.given (L.yield k) x = .ok a) :
    L.Reads (fun _ => x) a := by
  refine ⟨⟨0, fun k _ _ _ => h k⟩, fun {k _ b} hb => ?_⟩
  rw [h, Except.ok.injEq] at hb
  exact hb.symm

theorem fails_of_given {x : Attempt α} {e : EvalError} (h : ∀ k, L.given (L.yield k) x = .error e) :
    L.Fails fun _ => x := by
  intro k j a ha
  rw [h] at ha
  cases ha

section

variable {x : Nat → Attempt α} {f : Nat → α → Attempt β} {a : α}

/-- One computation after another has a result only if both have. -/
theorem given_bind_ok {ask : String → Except EvalError Value} {x : Attempt α} {f : α → Attempt β}
    {b : β} (h : L.given ask (x >>= f) = .ok b) :
    ∃ a, L.given ask x = .ok a ∧ L.given ask (f a) = .ok b := by
  rw [given_bind] at h
  cases hx : L.given ask x with
  | error e =>
    rw [hx] at h
    cases h
  | ok a =>
    rw [hx] at h
    exact ⟨a, rfl, h⟩

theorem Reads.bind {b : β} (hx : L.Reads x a) (hf : L.Reads (fun j => f j a) b) :
    L.Reads (fun j => x j >>= f j) b := by
  obtain ⟨n, hn⟩ := hx.enough
  obtain ⟨n', hn'⟩ := hf.enough
  refine ⟨⟨max n n', fun k hk j hj => ?_⟩, fun {k j b'} hb => ?_⟩
  · rw [given_bind, hn k (by omega) j (by omega)]
    exact hn' k (by omega) j (by omega)
  · obtain ⟨a', ha, hb⟩ := given_bind_ok hb
    obtain rfl := hx.only ha
    exact hf.only hb

theorem Fails.bind (hx : L.Fails x) : L.Fails fun j => x j >>= f j := by
  intro k j b hb
  obtain ⟨a, ha, _⟩ := given_bind_ok hb
  exact hx k j a ha

theorem Reads.bind_fails (hx : L.Reads x a) (hf : L.Fails fun j => f j a) :
    L.Fails fun j => x j >>= f j := by
  intro k j b hb
  obtain ⟨a', ha, hb⟩ := given_bind_ok hb
  obtain rfl := hx.only ha
  exact hf k j b hb

theorem Needs.bind {name : String} (hx : L.Needs x name) : L.Needs (fun j => x j >>= f j) name := by
  intro k j b hb
  obtain ⟨a, ha, _⟩ := given_bind_ok hb
  exact hx ha

theorem Reads.bind_needs {name : String} (hx : L.Reads x a) (hf : L.Needs (fun j => f j a) name) :
    L.Needs (fun j => x j >>= f j) name := by
  intro k j b hb
  obtain ⟨a', ha, hb⟩ := given_bind_ok hb
  obtain rfl := hx.only ha
  exact hf hb

/-- What a computation with a place for its errors results in, it results in without. -/
theorem given_located_ok {ask : String → Except EvalError Value} {span : Span} {x : Attempt α}
    {a : α} : L.given ask (ExceptT.adapt (fun e => e.located span) x) = .ok a ↔
      L.given ask x = .ok a := by
  rw [given_adapt]
  cases L.given ask x <;> simp [Except.mapError]

/-! ## The next level -/

variable {y : Nat → Attempt α}

theorem Reads.inside (hx : L.Reads x a) (hy : ∀ j, y (j + 1) = x j)
    (hzero : ∀ k b, L.given (L.yield k) (y 0) ≠ .ok b) : L.Reads y a := by
  obtain ⟨n, hn⟩ := hx.enough
  refine ⟨⟨n + 1, fun k hk j hj => ?_⟩, fun {k j b} hb => ?_⟩
  · obtain ⟨i, rfl⟩ : ∃ i, j = i + 1 := ⟨j - 1, by omega⟩
    rw [hy]
    exact hn k (by omega) i (by omega)
  · cases j with
    | zero => exact absurd hb (hzero k b)
    | succ j => exact hx.only (hy j ▸ hb)

theorem Fails.inside (hx : L.Fails x) (hy : ∀ j, y (j + 1) = x j)
    (hzero : ∀ k b, L.given (L.yield k) (y 0) ≠ .ok b) : L.Fails y := by
  intro k j b hb
  cases j with
  | zero => exact hzero k b hb
  | succ j => exact hx k j b (hy j ▸ hb)

theorem Needs.inside {name : String} (hx : L.Needs x name) (hy : ∀ j, y (j + 1) = x j)
    (hzero : ∀ k b, L.given (L.yield k) (y 0) ≠ .ok b) : L.Needs y name := by
  intro k j b hb
  cases j with
  | zero => exact absurd hb (hzero k b)
  | succ j => exact hx (hy j ▸ hb)

end

/-! ## Bodies -/

variable {name : String} {b : Suspension} (hb : L.offer? name = some b)

include hb

theorem yield_offer (k : Nat) : L.yield (k + 1) name = L.given (L.yield k) (L.task b k) := by
  rw [yield, hb]
  rfl

theorem Reads.yields {v : Value} (h : L.Reads (L.task b) v) : L.Yields name v := by
  obtain ⟨n, hn⟩ := h.enough
  refine ⟨⟨n + 1, fun k hk => ?_⟩, fun {k w} hw => ?_⟩
  · obtain ⟨i, rfl⟩ : ∃ i, k = i + 1 := ⟨k - 1, by omega⟩
    rw [yield_offer hb]
    exact hn i (by omega) i (by omega)
  · cases k with
    | zero => cases hw
    | succ k =>
      rw [yield_offer hb] at hw
      exact h.only hw

theorem Fails.barren (h : L.Fails (L.task b)) : L.Barren name := by
  intro k v hv
  cases k with
  | zero => cases hv
  | succ k =>
    rw [yield_offer hb] at hv
    exact h k k v hv

theorem Needs.links {other : String} (h : L.Needs (L.task b) other) : L.Links name other := by
  intro k v hv
  rw [yield_offer hb] at hv
  exact h hv

end Library

end LazyConfig
