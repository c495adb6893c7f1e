-- The documents of a session. Whatever calls are made, each binding is of a document that is
-- loaded: one of the sources that were passed to it, or one in a file.
-- Main statement: what lasts on a footing, and is kept when sources are loaded, holds of all
-- sessions.
import LazyConfig.Proofs.Document.Origin
import LazyConfig.Proofs.Session.Calls

namespace LazyConfig

open Store

namespace Session

/-- What the calls of a session may load: the document was passed to it under this name, or is in a
file whose contents go by the name. -/
inductive Supplies (host : Host) (calls : List Call) (name : String) (root : Expr) : Prop
  | passed {bytes : Bytes} (hcall : .loadSource name bytes ∈ calls)
      (hparse : parse host.maxParseDepth bytes = .ok root)
  | file {bytes : Bytes} (hread : host.Readable bytes) (hname : host.contentName bytes = name)
      (hparse : parse host.maxParseDepth bytes = .ok root)

/-- Footings that last also last through the calls of a session, if loading its sources keeps what
holds of the bodies. -/
theorem fits_perform_of_lasts {F : Footing} {base : Store Suspension → Prop} (h : F.Lasts base)
    {calls : List Call}
    (hload : ∀ name bytes root s, .loadSource name bytes ∈ calls →
      parse F.host.maxParseDepth bytes = .ok root → base s →
        firstTaken s.contains [] ((documentBindings name root).map (·.path)) = none →
          base (s.addAll (documentBindings name root)))
    {s : Session} (hhost : s.host = F.host) (hs : F.fits s.store) :
    (s.perform calls).host = F.host ∧ F.fits (s.perform calls).store := by
  refine perform_keeps (P := fun s => s.host = F.host ∧ F.fits s.store) ?_ ⟨hhost, hs⟩
  rintro c hc s ⟨hhost, hs⟩
  cases c with
  | loadSource name bytes =>
    rw [call_loadSource]
    cases hparse : parse s.host.maxParseDepth bytes with
    | error e => exact ⟨hhost, hs⟩
    | ok root =>
      dsimp only
      refine ⟨hhost, ?_⟩
      rw [exec_loadDocument]
      cases hfree : firstTaken s.store.contains [] ((documentBindings name root).map (·.path)) with
      | none =>
        rw [hhost] at hparse
        exact h.fits_addAll hs (hload name bytes root s.store hc hparse (h.fits_iff.mp hs).1 hfree)
      | some path => exact hs
  | loadFile path =>
    rw [call_loadFile, hhost]
    exact ⟨rfl, h.fits_loadFile hs path⟩
  | value path =>
    rw [call_value, hhost]
    exact ⟨rfl, ((h.ends F.host.maxDepth).value hs h.known).1⟩

variable (host : Host) (limits : Limits) (calls : List Call)

theorem filesAmong_supplies : host.FilesAmong (Supplies host calls) :=
  fun _ _ hread hparse => .file hread rfl hparse

/-- In all sessions whatever is bound, and the bodies of the lambdas in whatever is kept, were
written in a document that is loaded. -/
theorem origin_fits_perform :
    ((new host limits).perform calls).host = host ∧
      (origin host (Supplies host calls)).fits ((new host limits).perform calls).store := by
  have hlasts := origin_lasts (filesAmong_supplies host calls)
  refine fits_perform_of_lasts hlasts ?_ rfl ⟨documented_empty limits, nofun⟩
  exact fun name bytes root s hcall hparse hbase hfree =>
    hbase.addAll (.passed hcall hparse) hfree

end Session

end LazyConfig
