-- Evaluation keeps to the text. The body of a lambda is evaluated in the scopes and below the
-- parameters that it was written in, wherever it is called, and everything else where its binding
-- has it. So whatever is evaluated occurs in a document just as its frame says.
-- Main statements: occurring in a document as the frame says is a footing that lasts, and all that
-- a request evaluates stands on it, whatever was requested before.
import LazyConfig.Proofs.Document.Bearing
import LazyConfig.Proofs.Document.Occurrences
import LazyConfig.Proofs.Session.Loaded
import LazyConfig.Proofs.Session.Requests

namespace LazyConfig

open Store Evaluation Footing Relation

/-! ## Frames -/

/-- The frame shows where the expression occurs in a document: its scopes are the ones around by
their paths, and it has arguments for the parameters of the lambdas around. -/
structure Frame.Shows (frame : Frame) (name : String) (root : Expr) (scopes : List Scope)
    (names : List String) (e : Expr) : Prop where
  occurs : OccursIn name root scopes names e
  paths : frame.scopes = scopes.map (·.path)
  params : frame.env.map (·.1) = names

/-- A document that a request may come across: the one that was loaded, or one in a file. -/
inductive Host.Meets (host : Host) (name : String) (root : Expr) : String → Expr → Prop
  | loaded : host.Meets name root name root
  | file {bytes : Bytes} {inside : Expr} (hread : host.Readable bytes)
      (hparse : parse host.maxParseDepth bytes = .ok inside) :
      host.Meets name root (host.contentName bytes) inside

variable {host : Host} {name : String} {root : Expr} {s s' : Store Suspension}

/-! ## The footing -/

/-- All bindings are of documents, and below the name of the one that was loaded there are only its
own. -/
structure Store.Confines (host : Host) (name : String) (root : Expr)
    (s : Store Suspension) : Prop where
  documented : Documented (host.Meets name root) s
  only : ∀ path, Below name path →
    s.body? path = (documentBindings name root).find? fun b => b.path = path

/-- Expressions occur in a document, in scopes with these paths and below these parameters. -/
def scoping (host : Host) (name : String) (root : Expr) : Footing where
  host := host
  fits s := s.Confines host name root ∧ ∀ n v, s.state? n = some (.evaluated v) → ∀ c ∈ v.closures,
    ∃ name' root' scopes, host.Meets name root name' root' ∧
    OccursIn name' root' scopes c.names c.body ∧
      c.scopes = scopes.map (·.path)
  later _ _ := True
  place _ paths names e := ∃ name' root' scopes, host.Meets name root name' root' ∧
    OccursIn name' root' scopes names e ∧ paths = scopes.map (·.path)
  known _ _ := True
  place_child := by
    rintro s paths names e inside ⟨name', root', scopes, hmeets, hoccurs, hpaths⟩ hmem
    exact ⟨name', root', scopes, hmeets, hoccurs.child hmem, hpaths⟩
  place_later _ he := he
  known_later _ h := h

theorem Store.Confines.same (h : s.Confines host name root) (hbodies : s'.bodies = s.bodies) :
    s'.Confines host name root := by
  refine ⟨h.documented.same hbodies, fun path hpath => ?_⟩
  rw [body?_eq_bodies, hbodies, ← body?_eq_bodies]
  exact h.only path hpath

/-- A file binds nothing below a name that is apart from the files. -/
theorem Store.Confines.addFile (h : s.Confines host name root) (hspares : host.Spares name)
    {bytes : Bytes} {inside : Expr} (hread : host.Readable bytes)
    (hparse : parse host.maxParseDepth bytes = .ok inside)
    (hfree : firstTaken s.contains [] ((host.fileBindings bytes inside).map (·.path)) = none) :
    (s.addAll (host.fileBindings bytes inside)).Confines host name root := by
  refine ⟨h.documented.addAll (.file hread hparse) hfree, fun path hpath => ?_⟩
  have hnone : (host.fileBindings bytes inside).find? (fun b => b.path = path) = none := by
    rw [List.find?_eq_none]
    intro b hb heq
    have hbelow := (within_documentBindings hb).path
    rw [of_decide_eq_true heq] at hbelow
    exact hspares.below hpath bytes hread hbelow
  rw [body?_addAll, hnone, Option.or_none]
  exact h.only path hpath

/-- What the binding of a document evaluates occurs in it. -/
theorem Store.Confines.opens (h : s.Confines host name root) {n : String} {b : Suspension}
    (hb : s.body? n = some b) : (scoping host name root).Opens s b := by
  obtain ⟨-, name', root', hmeets, -, hmem⟩ := h.documented n b hb
  obtain ⟨hexpression, hspread⟩ := occursIn_of_mem hmem
  unfold Footing.Opens
  cases htask : b.task with
  | expression e =>
    obtain ⟨scopes, hoccurs, hpaths⟩ := hexpression e htask
    exact ⟨name', root', scopes, hmeets, hoccurs, hpaths⟩
  | members members =>
    refine ⟨fun e he => ?_, fun _ _ _ => trivial⟩
    obtain ⟨scopes, hoccurs, hpaths⟩ := hspread members e htask he
    exact ⟨name', root', scopes, hmeets, hoccurs, hpaths⟩

theorem scoping_lasts (hspares : host.Spares name) :
    (scoping host name root).Lasts (Store.Confines host name root) where
  fits_iff := Iff.rfl
  later _ := trivial
  same hbodies hbase := hbase.same hbodies
  file hbase hread hparse hfree := hbase.addFile hspares hread hparse hfree
  opens hbase hb := hbase.opens hb
  known := trivial

/-! ## Requests -/

/-- The document is loaded into a new session, under a name apart from those of the files. -/
structure Session.LoadedApart (s : Session) (host : Host) (name : String) (root : Expr) : Prop where
  spares : host.Spares name
  loads : ∃ limits bytes, parse host.maxParseDepth bytes = .ok root ∧
    (Session.new host limits).loadSource name bytes = (.ok (), s)

namespace Session

variable {s : Session}

/-- A document that is loaded has distinct paths, and its bindings are added. -/
theorem eq_of_loadSource {s loaded : Session} {name : String} {bytes : Bytes} {root : Expr}
    (hparse : parse s.host.maxParseDepth bytes = .ok root)
    (hload : s.loadSource name bytes = (.ok (), loaded)) :
    firstTaken s.store.contains [] ((documentBindings name root).map (·.path)) = none ∧
      loaded = { s with store := s.store.addAll (documentBindings name root) } := by
  unfold loadSource attempt at hload
  simp only [hparse, exec_loadDocument] at hload
  cases htaken : firstTaken s.store.contains [] ((documentBindings name root).map (·.path)) with
  | none =>
    rw [htaken] at hload
    exact ⟨rfl, (Prod.mk.inj hload).2.symm⟩
  | some path =>
    rw [htaken] at hload
    cases (Prod.mk.inj hload).1

theorem LoadedApart.nodup (h : s.LoadedApart host name root) :
    ((documentBindings name root).map (·.path)).Nodup := by
  obtain ⟨limits, bytes, hparse, hload⟩ := h.loads
  exact (firstTaken_eq_none.mp (eq_of_loadSource hparse hload).1).1

theorem LoadedApart.fits (h : s.LoadedApart host name root) :
    s.host = host ∧ (scoping host name root).fits s.store := by
  obtain ⟨limits, bytes, hparse, hload⟩ := h.loads
  obtain ⟨hfree, rfl⟩ := eq_of_loadSource hparse hload
  refine ⟨rfl, ⟨(documented_empty limits).addAll .loaded hfree, fun path _ => ?_⟩, fun n v hv => ?_⟩
  · exact body?_addAll (empty limits) (documentBindings name root) path
  · rcases state?_addAll hv with hold | hnew
    · cases hold
    · cases hnew

theorem host_requests (s : Session) (paths : List String) : (s.requests paths).host = s.host := by
  induction paths generalizing s with
  | nil => rfl
  | cons path later ih => exact ih (s.value path).2

/-- On a footing that lasts, the store fits after requests, too. -/
theorem fits_requests {F : Footing} {base : Store Suspension → Prop} (h : F.Lasts base)
    (hhost : s.host = F.host) (hs : F.fits s.store) (paths : List String) :
    F.fits (s.requests paths).store := by
  induction paths generalizing s with
  | nil => exact hs
  | cons path later ih =>
    have hfits : F.fits (s.store.value (behaviour F.host) F.host.maxDepth path).2 :=
      ((h.ends F.host.maxDepth).value hs h.known).1
    rw [← hhost] at hfits
    exact ih hhost hfits

/-- Whatever was requested before, all that a request leads to stands on the footing. -/
theorem LoadedApart.bears (h : s.LoadedApart host name root) (earlier : List String) {path : String}
    {y : Scene} (hreached : ReflTransGen (Inside host)
      (.request host.maxDepth path, ⟨(s.requests earlier).store, 0⟩) y) :
    (scoping host name root).Bears y := by
  have hlasts : (scoping host name root).Lasts _ := scoping_lasts h.spares
  obtain ⟨hhost, hfits⟩ := h.fits
  have hstart : (scoping host name root).fits (s.requests earlier).store :=
    fits_requests hlasts hhost hfits earlier
  exact (bears_request (F := scoping host name root) hstart).reached hlasts hreached

/-- When something that a request leads to fails at a place, so does the request. -/
theorem LoadedApart.value_eq_error (h : s.LoadedApart host name root) (earlier : List String)
    {path : String} {y : Scene} (hreached : ReflTransGen (Inside host)
      (.request host.maxDepth path, ⟨(s.requests earlier).store, 0⟩) y)
    {cause : RuntimeCause} {span : Span} (hy : y.1.Fails host y.2 (.runtime ⟨cause, some span⟩)) :
    ((s.requests earlier).value path).1 = .error (.runtime ⟨cause, some span⟩) := by
  have hvalue : ((s.requests earlier).store.value (behaviour host) host.maxDepth path).1 =
      .error (.runtime ⟨cause, some span⟩) := fails_value.mp (fails_of_reached hreached hy)
  rw [← h.fits.1, ← host_requests s earlier] at hvalue
  exact hvalue

/-- The frame of an expression shows where it occurs, in the document or in one of a file. -/
theorem shows_of_bears {y : Scene} (hy : (scoping host name root).Bears y) {left : Nat}
    {frame : Frame} {e : Expr} (hexpression : y.1 = .expression left frame e) :
    ∃ name' root' scopes names,
      host.Meets name root name' root' ∧ frame.Shows name' root' scopes names e := by
  obtain ⟨name', root', scopes, hmeets, hoccurs, hpaths⟩ := (hy.expression _ _ _ hexpression).place
  exact ⟨name', root', scopes, _, hmeets, hoccurs, hpaths, rfl⟩

end Session

end LazyConfig
