-- The bindings of a document: one for its root, and one for each property of an object
-- literal in property position, under the path of the literal and the key. Such a literal
-- and the root are the scopes that names are looked up in.
-- Main statement: the first binding of an expression is its own path.
import LazyConfig.Source.Expr

namespace LazyConfig

/-- What a binding evaluates: an expression, or the members of an object literal, whose
properties are bindings themselves. -/
inductive Task where
  | expression (e : Expr)
  | members (ms : List Member)

/-- The deferred computation of the binding `path`: its task, and the scopes around it by their
paths, innermost first. -/
structure Suspension where
  path : String
  scopes : List String
  task : Task

/-- The path of a property. -/
def childPath (path key : String) : String := path ++ "." ++ key

/-- Whether some later member sets the key. -/
def isOverridden (key : String) (later : List Member) : Bool :=
  later.any fun m => m.key? = some key

mutual

/-- The bindings of an expression at `path` inside `scopes`, parents before children. A root
that is no object literal is its own scope. -/
def bindingsAt (scopes : List String) (path : String) : Expr → List Suspension
  | .object _ members =>
    ⟨path, path :: scopes, .members members⟩ :: memberBindings (path :: scopes) path members
  | e => [⟨path, if scopes.isEmpty then [path] else scopes, .expression e⟩]

/-- The bindings of the properties of an object literal at `path`. Of properties with one key
only the last is bound. -/
def memberBindings (scopes : List String) (path : String) : List Member → List Suspension
  | [] => []
  | .property key value :: later =>
    if isOverridden key later then memberBindings scopes path later
    else bindingsAt scopes (childPath path key) value ++ memberBindings scopes path later
  | .spread _ :: later => memberBindings scopes path later

end

/-- The bindings of a document named `name`. -/
def documentBindings (name : String) (root : Expr) : List Suspension := bindingsAt [] name root

theorem head?_bindingsAt (scopes : List String) (path : String) (e : Expr) :
    (bindingsAt scopes path e).head?.map (·.path) = some path := by
  cases e <;> rfl

end LazyConfig
