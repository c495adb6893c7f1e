-- Loading a document: its bindings are defined all together or, if one of their paths is
-- taken, not at all. A document from a file goes by the name of its contents, so the same
-- contents are loaded once.
import LazyConfig.Document.Bindings
import LazyConfig.Engine.Program
import LazyConfig.Host.Basic
import LazyConfig.Source.Grammar

namespace LazyConfig

/-- What a document may do to the store that holds it, up to its first error. The context of a
request is how many levels may still nest inside. -/
abbrev Attempt := ExceptT EvalError (Program Suspension Nat)

namespace Attempt

def define (b : Suspension) : Attempt Unit := ExceptT.mk (.define b.path b .done)

def contains (path : String) : Attempt Bool := ExceptT.mk (.contains path fun r => .done (.ok r))

/-- The value of a binding, with `left` levels inside. -/
def value (left : Nat) (path : String) : Attempt Value := ExceptT.mk (.value left path .done)

/-- Refuses the first path that is bound or that repeats one of `earlier` or one before it. -/
def checkPaths (earlier : List String) : List String → Attempt Unit
  | [] => pure ()
  | path :: later => do
    let taken ← contains path
    if taken || earlier.contains path then throw (.duplicateBinding path)
    else checkPaths (path :: earlier) later

/-- Defines bindings in their order. -/
def defineAll : List Suspension → Attempt Unit
  | [] => pure ()
  | b :: later => do
    define b
    defineAll later

/-- Loads a document under a name. -/
def loadDocument (name : String) (root : Expr) : Attempt Unit := do
  let bindings := documentBindings name root
  checkPaths [] (bindings.map (·.path))
  defineAll bindings

/-- Loads the contents of the file `path` under a name, unless the name is bound. -/
def loadContent (host : Host) (name path : String) (bytes : Bytes) : Attempt Unit := do
  if ← contains name then pure ()
  else
    match parse host.maxParseDepth bytes with
    | .ok root => loadDocument name root
    | .error e => throw (.document path e)

/-- The bytes of a file. -/
def readBytes (host : Host) (path : String) : Attempt Bytes :=
  match host.storage.readBytes path with
  | .ok bytes => pure bytes
  | .error e => throw (.storage e)

/-- The text of a file. -/
def readText (host : Host) (path : String) : Attempt String :=
  match host.storage.readText path with
  | .ok text => pure text
  | .error e => throw (.storage e)

/-- Loads the document in a file, and gives its name. -/
def loadFile (host : Host) (path : String) : Attempt String := do
  let bytes ← readBytes host path
  let name := host.contentName bytes
  loadContent host name path bytes
  pure name

end Attempt

end LazyConfig
