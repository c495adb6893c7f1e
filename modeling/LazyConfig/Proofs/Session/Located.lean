-- Errors say where they come from. Whatever calls were made before, and whichever documents were
-- passed or included, a runtime error of a request has the place of the expression in which it
-- arose.
-- Main statement: a request fails with a runtime error exactly if what it evaluates leads down to
-- an expression of a loaded document that raises the error by itself, and the error has the place
-- of that expression.
import LazyConfig.Proofs.Document.Bearing
import LazyConfig.Proofs.Session.Documents
import LazyConfig.Proofs.Session.Failures

namespace LazyConfig

open Store Evaluation Footing Relation

/-- The error arises where the request leads to an expression that raises it by itself. The
expression was written in a document that is loaded there, a source that was passed to the session
or a file, and the error has its place: neither the calls around, nor the bindings that ask for one
another, nor inclusions have changed it. When a function does not take its arguments, this is the
place of the call. -/
theorem runtime_errors_are_located (host : Host) (limits : Limits) (calls : List Session.Call)
    (path : String) (cause : RuntimeCause) (span? : Option Span) :
    let s := (Session.new host limits).perform calls
    (s.value path).1 = .error (.runtime ⟨cause, span?⟩) ↔
      ∃ y node, ReflTransGen (Inside host) (.request host.maxDepth path, ⟨s.store, 0⟩) y ∧
        Faults host y node cause ∧ span? = some node.span ∧
        ∃ name root, Session.Supplies host calls name root ∧ y.2.store.HasDocument name root ∧
          node.PartOf root := by
  intro s
  have hlasts := origin_lasts (Session.filesAmong_supplies host calls)
  obtain ⟨hhost, hfits⟩ := Session.origin_fits_perform host limits calls
  have hvalue : (s.value path).1 = .error (.runtime ⟨cause, span?⟩) ↔
      Raised host (.request host.maxDepth path, ⟨s.store, 0⟩) ⟨cause, span?⟩ := by
    have hfails : (Activity.request host.maxDepth path).Fails host ⟨s.store, 0⟩
        (.runtime ⟨cause, span?⟩) ↔
          (s.store.value (behaviour host) host.maxDepth path).1 =
          .error (.runtime ⟨cause, span?⟩) :=
      fails_value
    rw [← request_fails_iff, hfails, ← hhost]
    rfl
  rw [hvalue]
  constructor
  · intro h
    obtain ⟨y, node, hchain, hfaults, hspan, _, _, hwritten⟩ := h.place hlasts (bears_request hfits)
    exact ⟨y, node, hchain, hfaults, hspan, hwritten⟩
  · rintro ⟨y, node, hchain, hfaults, hspan, _⟩
    exact ⟨y, node, hchain, hfaults, hspan⟩

/-- The sum is the place of the error, and not the call. -/
example :
    let s := (Session.new { storage := .memory [] } {}).perform
      [.loadSource "m" (Utf8.encode "\x7bf:(x)=>x+null,a:f(1)\x7d")]
    (s.value "m.a").1 =
      .error (.runtime ⟨.typeMismatch (.operands .add "number" "null"), some ⟨8, 14⟩⟩) :=
  failure?_eq_some.mp (by decide +kernel)

end LazyConfig
