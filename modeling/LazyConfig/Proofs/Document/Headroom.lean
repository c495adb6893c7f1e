-- Evaluation with more levels and more of the quotas. No expression can tell how much is left, and
-- none can go on after an error, so an evaluation either does the same with more or ran out before.
-- Main statement: so does all that bindings and expressions do, at every level.
import LazyConfig.Proofs.Document.Loading
import LazyConfig.Proofs.Document.Relations
import LazyConfig.Proofs.Engine.Headroom

namespace LazyConfig

open Store

/-- A host, and how much more of everything that can run out there is to be. -/
structure Widening where
  host : Host
  levels : Nat
  room : Limits

namespace Widening

variable {w : Widening} {α β : Type}

/-- The host with the additional levels. -/
def wide (w : Widening) : Host := { w.host with maxDepth := w.host.maxDepth + w.levels }

@[simp] theorem storage_wide (w : Widening) : w.wide.storage = w.host.storage := rfl

@[simp] theorem maxParseDepth_wide (w : Widening) :
    w.wide.maxParseDepth = w.host.maxParseDepth := rfl

/-- At the host, the first attempt does what the second does with more, or it runs out. -/
def Abridges (w : Widening) (x y : Attempt α) : Prop :=
  Store.Abridges (behaviour w.host) (behaviour w.wide) w.room x y

theorem Abridges.bind {x y : Attempt α} {f g : α → Attempt β} (hx : w.Abridges x y)
    (hf : ∀ a, w.Abridges (f a) (g a)) : w.Abridges (x >>= f) (y >>= g) :=
  Store.Abridges.bind hx hf

theorem abridges_pure (a : α) : w.Abridges (pure a) (pure a) := .pure a

theorem abridges_throw (e : EvalError) :
    w.Abridges (throw e : Attempt α) (throw e) := .throw e

theorem abridges_contains (path : String) :
    w.Abridges (Attempt.contains path) (Attempt.contains path) :=
  fun s => .whole (.ok (s.contains path)) s

/-! ## Files -/

theorem abridges_loadDocument (name : String) (root : Expr) :
    w.Abridges (Attempt.loadDocument name root) (Attempt.loadDocument name root) := by
  intro s
  rw [exec_loadDocument, exec_loadDocument, contains_widen]
  cases firstTaken s.contains [] ((documentBindings name root).map (·.path)) with
  | none => exact .whole (.ok ()) (s.addAll (documentBindings name root))
  | some path => exact .whole (.error (.duplicateBinding path)) s

theorem abridges_loadContent (name path : String) (bytes : Bytes) :
    w.Abridges (Attempt.loadContent w.host name path bytes)
      (Attempt.loadContent w.wide name path bytes) := by
  unfold Attempt.loadContent
  rw [maxParseDepth_wide]
  apply (abridges_contains name).bind
  intro found
  cases found with
  | true => exact abridges_pure ()
  | false =>
    cases parse w.host.maxParseDepth bytes with
    | ok root => exact abridges_loadDocument name root
    | error e => exact abridges_throw (.document path e)

theorem abridges_readBytes (path : String) :
    w.Abridges (Attempt.readBytes w.host path) (Attempt.readBytes w.wide path) := by
  unfold Attempt.readBytes
  rw [storage_wide]
  cases w.host.storage.readBytes path with
  | ok bytes => exact abridges_pure bytes
  | error e => exact abridges_throw (.storage e)

theorem abridges_readText (path : String) :
    w.Abridges (Attempt.readText w.host path) (Attempt.readText w.wide path) := by
  unfold Attempt.readText
  rw [storage_wide]
  cases w.host.storage.readText path with
  | ok text => exact abridges_pure text
  | error e => exact abridges_throw (.storage e)

theorem abridges_loadFile (path : String) :
    w.Abridges (Attempt.loadFile w.host path) (Attempt.loadFile w.wide path) := by
  unfold Attempt.loadFile
  apply (abridges_readBytes path).bind
  intro bytes
  exact (abridges_loadContent _ path bytes).bind fun _ => abridges_pure _

/-! ## All levels -/

theorem abridges_composes (w : Widening) : Composes (fun _ => w.Abridges) w.host w.wide where
  pure := abridges_pure
  throw := abridges_throw
  bind := Abridges.bind
  located span h := Store.Abridges.adapt h fun e => by cases e <;> rfl
  contains := abridges_contains
  loadFile := abridges_loadFile
  readText := abridges_readText
  readBytes := abridges_readBytes

theorem abridges_value {left left' : Nat}
    (hbody : ∀ b, w.Abridges (behaviour w.host b left) (behaviour w.wide b left')) (path : String) :
    w.Abridges (Attempt.value left path) (Attempt.value left' path) :=
  fun s => abridged_value hbody s path

/-- The additional levels and quotas show at no level, but where they would be missed. -/
theorem abridges_at (w : Widening) (left : Nat) :
    HoldsAt (fun _ => w.Abridges) w.host w.wide left (left + w.levels) := by
  induction left with
  | zero =>
    -- The host has no level left, which stops forcings and calls alike.
    refine ⟨w.abridges_composes, abridges_value fun b => ?_, fun frame e count => ?_⟩
    · exact .exhausted rfl _
    · exact .exhausted rfl _
  | succ left ih =>
    rw [Nat.add_right_comm]
    exact ⟨w.abridges_composes, abridges_value ih.behaviour, ih.inside⟩

end Widening

end LazyConfig
