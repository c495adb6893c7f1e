-- Where documents are kept: files in memory, or files below a directory. A path below a directory
-- is judged by its components, and is put behind the path of the directory as it is written.
-- Main statement: a path is refused exactly when it is empty or has a component that leaves the
-- directory.
import LazyConfig.Text.Utf8

namespace LazyConfig

/-- Why a file cannot be read. -/
inductive StorageError where
  | notFound (path : String)
  | invalidPath (path : String)
  /-- A file that is there but is not given, and what the file system says about it. -/
  | io (path message : String)
  /-- A file that is no text, and how many of its bytes are. -/
  | invalidUtf8 (path : String) (offset : Nat)
  deriving DecidableEq, Repr

def StorageError.message : StorageError → String
  | notFound path => s!"'{path}' not found"
  | invalidPath path => s!"'{path}' is not a valid document path"
  | io path message => s!"failed to read '{path}': {message}"
  | invalidUtf8 path offset => s!"'{path}' is not valid UTF-8 (at byte {offset})"

/-- The files that documents may include. -/
structure Storage where
  readBytes : String → Except StorageError Bytes

namespace Storage

/-- The text of a file. -/
def readText (storage : Storage) (path : String) : Except StorageError String := do
  let bytes ← storage.readBytes path
  (Utf8.decode bytes).mapError fun offset => .invalidUtf8 path offset

/-- Files in memory, by path. -/
def memory (files : List (String × Bytes)) : Storage where
  readBytes path :=
    match files.lookup path with
    | some bytes => .ok bytes
    | none => .error (.notFound path)

/-! ## Directories -/

/-- What a path is made up of. -/
inductive Component where
  /-- A slash at the front: the path starts from the top of the file system. -/
  | top
  /-- A single dot at the front. -/
  | here
  /-- Two dots: one directory up. -/
  | up
  | name (name : String)
  deriving DecidableEq, Repr

/-- Whether a component never leaves the directory that it is followed from. -/
def Component.staysInside : Component → Bool
  | here | name _ => true
  | top | up => false

/-- The component that is written behind the front of a path. Between slashes that follow one
another, behind a last slash and where a single dot stands there is none. -/
def component? (piece : List Char) : Option Component :=
  if piece = [] ∨ piece = ['.'] then none
  else if piece = ['.', '.'] then some .up
  else some (.name (String.ofList piece))

/-- The components behind the front of a path, when `piece` is read of the first one. -/
def componentsFrom (piece : List Char) : List Char → List Component
  | [] => (component? piece).toList
  | c :: cs =>
    if c = '/' then (component? piece).toList ++ componentsFrom [] cs
    else componentsFrom (piece ++ [c]) cs

/-- The components of a path. -/
def components (path : String) : List Component :=
  match path.toList with
  | '/' :: cs => .top :: componentsFrom [] cs
  | ['.'] => [.here]
  | '.' :: '/' :: cs => .here :: componentsFrom [] cs
  | cs => componentsFrom [] cs

/-- A path behind the path of a directory. -/
def join (root path : String) : String :=
  if root = "" ∨ root.toList.getLast? = some '/' then root ++ path else root ++ "/" ++ path

/-- The path of a file below a directory. It is judged by its components, and joined as it is
written. -/
def resolve (root path : String) : Except StorageError String :=
  if path = "" ∨ !(components path).all Component.staysInside then .error (.invalidPath path)
  else .ok (join root path)

/-- Why a file system does not give a file: there is none, or something else that it says. -/
inductive ReadFault where
  | missing
  | other (message : String)
  deriving DecidableEq, Repr

/-- The fault in reading a path, as an error of the storage. -/
def ReadFault.toError (fault : ReadFault) (path : String) : StorageError :=
  match fault with
  | missing => .notFound path
  | other message => .io path message

/-- Files of a file system below a directory. A path is judged before any file is looked at. -/
def below (root : String) (files : String → Except ReadFault Bytes) : Storage where
  readBytes path := do
    let full ← resolve root path
    (files full).mapError (·.toError path)

/-- Files below the directory that paths are followed from. -/
def directory (files : String → Except ReadFault Bytes) : Storage := below "" files

theorem resolve_eq_error {root path : String} {e : StorageError} :
    resolve root path = .error e ↔
      (path = "" ∨ (components path).all Component.staysInside = false) ∧
      e = .invalidPath path := by
  unfold resolve
  split
  · next h =>
    rw [Bool.not_eq_true'] at h
    simp only [h, true_and, Except.error.injEq]
    exact eq_comm
  · next h =>
    rw [Bool.not_eq_true'] at h
    simp only [h, false_and, iff_false]
    exact nofun

end Storage

end LazyConfig
