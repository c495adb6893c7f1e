-- What evaluation may define, and with how many levels it may ask for values. Nothing in a document
-- defines a binding but an include, which defines the bindings of a file, so all that evaluation
-- ever adds to a store is below the names of files.
-- Main statement: what evaluation may do at each level.
import LazyConfig.Proofs.Document.Library
import LazyConfig.Proofs.Document.Relations

namespace LazyConfig

open Store

variable {T R α β : Type} {P : String → Prop} {Q : Nat → Prop}

/-! ## Programs -/

/-- The program defines only names of a kind, and asks for values in contexts of a kind, whatever it
is answered. -/
def Program.Only (P : String → Prop) (Q : R → Prop) : Program T R α → Prop
  | .done _ => True
  | .define name _ next => P name ∧ ∀ r, (next r).Only P Q
  | .contains _ next => ∀ r, (next r).Only P Q
  | .value context _ next => Q context ∧ ∀ r, (next r).Only P Q

theorem Program.Only.bind {Q : R → Prop} {p : Program T R α} {f : α → Program T R β}
    (hp : p.Only P Q) (hf : ∀ a, (f a).Only P Q) : (p >>= f).Only P Q := by
  induction p with
  | done a => exact hf a
  | define name body next ih => exact ⟨hp.1, fun r => ih r (hp.2 r)⟩
  | contains name next ih => exact fun r => ih r (hp r)
  | value context name next ih => exact ⟨hp.1, fun r => ih r (hp.2 r)⟩

namespace Attempt

/-- The attempt defines only names of a kind, and asks for values with some numbers of levels
only. -/
def Only (P : String → Prop) (Q : Nat → Prop) (x : Attempt α) : Prop := x.run.Only P Q

theorem only_pure (a : α) : Only P Q (pure a : Attempt α) := trivial

theorem only_throw (e : EvalError) : Only P Q (throw e : Attempt α) := trivial

theorem Only.bind {x : Attempt α} {f : α → Attempt β} (hx : Only P Q x)
    (hf : ∀ a, Only P Q (f a)) : Only P Q (x >>= f) := by
  apply Program.Only.bind hx
  intro r
  cases r with
  | ok a => exact hf a
  | error e => trivial

theorem only_contains (path : String) : Only P Q (contains path) := fun _ => trivial

theorem only_value {left : Nat} (hleft : Q left) (path : String) : Only P Q (value left path) :=
  ⟨hleft, fun _ => trivial⟩

theorem only_checkPaths (earlier paths : List String) :
    Only P Q (checkPaths earlier paths) := by
  induction paths generalizing earlier with
  | nil => exact only_pure ()
  | cons path later ih =>
    unfold checkPaths
    apply (only_contains path).bind
    intro taken
    split
    · exact only_throw _
    · exact ih (path :: earlier)

theorem only_defineAll {bindings : List Suspension} (h : ∀ b ∈ bindings, P b.path) :
    Only P Q (defineAll bindings) := by
  induction bindings with
  | nil => exact only_pure ()
  | cons b later ih =>
    obtain ⟨hb, hlater⟩ := List.forall_mem_cons.mp h
    have hdefine : Only P Q (define b) := ⟨hb, fun _ => trivial⟩
    exact hdefine.bind fun _ => ih hlater

theorem Only.adapt {x : Attempt α} (hx : Only P Q x) (place : EvalError → EvalError) :
    Only P Q (ExceptT.adapt place x) := Program.Only.bind hx fun _ => trivial

end Attempt

/-- The names of a kind include all that files are bound to. -/
def Host.FilesIn (host : Host) (P : String → Prop) : Prop :=
  ∀ bytes, host.Readable bytes → ∀ name, Below (host.contentName bytes) name → P name

variable {host : Host}

theorem Attempt.only_loadContent (hfiles : host.FilesIn P) {bytes : Bytes}
    (hread : host.Readable bytes) (path : String) :
    Only P Q (loadContent host (host.contentName bytes) path bytes) := by
  unfold loadContent
  apply (only_contains _).bind
  intro found
  split
  · exact only_pure ()
  split
  · next root hparse =>
    unfold loadDocument
    apply (only_checkPaths _ _).bind
    intro _
    apply only_defineAll
    intro b hb
    exact hfiles bytes hread b.path (within_documentBindings hb).path
  · exact only_throw _

theorem Attempt.only_loadFile (hfiles : host.FilesIn P) (path : String) :
    Only P Q (loadFile host path) := by
  unfold loadFile readBytes
  cases hread : host.storage.readBytes path with
  | error e => exact only_throw (.storage e)
  | ok bytes =>
    show Only P Q (loadContent host (host.contentName bytes) path bytes >>= _)
    exact (only_loadContent hfiles ⟨path, hread⟩ path).bind fun _ => only_pure _

theorem Attempt.only_readBytes (path : String) : Only P Q (readBytes host path) := by
  unfold readBytes
  split
  · exact only_pure _
  · exact only_throw _

theorem Attempt.only_readText (path : String) : Only P Q (readText host path) := by
  unfold readText
  split
  · exact only_pure _
  · exact only_throw _

/-! ## Evaluation -/

theorem only_composes (hfiles : host.FilesIn P) :
    Composes (fun _ x _ => Attempt.Only P Q x) host host where
  pure := Attempt.only_pure
  throw := Attempt.only_throw
  bind := Attempt.Only.bind
  located _ h := h.adapt _
  contains := Attempt.only_contains
  loadFile := Attempt.only_loadFile hfiles
  readText := Attempt.only_readText
  readBytes := Attempt.only_readBytes

theorem only_at (hfiles : host.FilesIn P) {left : Nat} (hlevels : ∀ l ≤ left, Q l) :
    HoldsAt (fun _ x _ => Attempt.Only P Q x) host host left left := by
  induction left with
  | zero =>
    refine ⟨only_composes hfiles, Attempt.only_value (hlevels 0 (Nat.le_refl 0)), ?_⟩
    exact fun frame e count => Attempt.only_throw host.overflow
  | succ left ih =>
    refine ⟨only_composes hfiles, Attempt.only_value (hlevels _ (Nat.le_refl _)), ?_⟩
    exact (ih fun l hl => hlevels l (Nat.le_succ_of_le hl)).inside

end LazyConfig
