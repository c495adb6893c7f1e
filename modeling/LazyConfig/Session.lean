-- Sessions: a store of bindings, the documents loaded into it, and the host whose files they
-- include. Nothing is evaluated until a value is asked for.
-- Main statement: loading never changes the host.
import LazyConfig.Diagnostic.Failure
import LazyConfig.Document.Eval

namespace LazyConfig

structure Session where
  host : Host
  store : Store Suspension

namespace Session

variable {α : Type}

/-- A session without documents. -/
def new (host : Host) (limits : Limits) : Session := ⟨host, Store.empty limits⟩

/-- Does something to the store. -/
def attempt (s : Session) (a : Attempt α) : Except EvalError α × Session :=
  let (result, store) := s.store.exec (behaviour s.host) a.run
  (result, { s with store })

/-- Loads a source under a name. -/
def loadSource (s : Session) (name : String) (bytes : Bytes) : Except Failure Unit × Session :=
  match parse s.host.maxParseDepth bytes with
  | .error e => (.error (.source e), s)
  | .ok root =>
    let (result, s) := s.attempt (Attempt.loadDocument name root)
    (result.mapError .evaluation, s)

/-- Loads the document in a file under the name of its contents, which is the answer. Contents
that are loaded already are not loaded again. -/
def loadFile (s : Session) (path : String) : Except Failure String × Session :=
  let (result, s) := s.attempt (Attempt.loadFile s.host path)
  (result.mapError .evaluation, s)

/-- The value of a binding, such as a document or a property of one. -/
def value (s : Session) (path : String) : Except EvalError Value × Session :=
  let (result, store) := s.store.value (behaviour s.host) s.host.maxDepth path
  (result, { s with store })

/-- The value of a binding, or how the request fails. -/
def request (s : Session) (path : String) : Except Failure Value × Session :=
  let (result, s) := s.value path
  (result.mapError .evaluation, s)

/-! ## Small facts -/

theorem host_loadSource (s : Session) (name : String) (bytes : Bytes) :
    (s.loadSource name bytes).2.host = s.host := by
  unfold loadSource
  split <;> rfl

end Session

end LazyConfig
