-- Values: what expressions evaluate to. A compound value carries the identity of the
-- evaluation that made it, so two of them are the same value only if they came from one.
import LazyConfig.Number.Double
import LazyConfig.Number.Int128
import LazyConfig.Source.Expr
import LazyConfig.Value.Object

namespace LazyConfig

/-- Which value a compound value is: the binding whose forcing made it, and how many that
forcing had made before. -/
structure Identity where
  owner : String
  index : Nat
  deriving DecidableEq, Repr

/-- The functions that every document may name. -/
inductive Builtin where
  /-- The value of a document in a file. -/
  | document
  /-- The text of a file. -/
  | text
  /-- The bytes of a file. -/
  | blob
  deriving DecidableEq, Repr

namespace Builtin

def name : Builtin → String
  | document => "include"
  | text => "include_text"
  | blob => "include_blob"

def all : List Builtin := [document, text, blob]

def ofName? (s : String) : Option Builtin := all.find? fun b => b.name = s

end Builtin

mutual

inductive Value where
  | undefined
  | null
  | boolean (b : Bool)
  | number (x : Float)
  | bigint (n : Int128)
  | string (s : String)
  | blob (bytes : Bytes)
  | array (id : Identity) (items : List Value)
  | object (id : Identity) (entries : List (String × Value))
  | function (id : Identity) (f : Function)

inductive Function where
  /-- A lambda with the scopes it was written in, innermost first, and the arguments of the
  calls around it. -/
  | lambda (params : List String) (body : Expr) (scopes : List String)
      (env : List (String × Value))
  | builtin (b : Builtin)
  /-- A function of the host, of which documents know the name only. -/
  | host (name : String)

end

instance : Inhabited Value := ⟨.undefined⟩

/-- The name of a function in messages. -/
def Function.name : Function → String
  | lambda _ _ _ _ => "<lambda>"
  | builtin b => b.name
  | host name => name

namespace Value

/-! ## Kinds -/

def typeName : Value → String
  | undefined => "undefined"
  | null => "null"
  | boolean _ => "boolean"
  | number _ => "number"
  | bigint _ => "bigint"
  | string _ => "string"
  | blob _ => "blob"
  | array _ _ => "array"
  | object _ _ => "object"
  | function _ _ => "function"

/-- Whether the value counts as true: nothing missing, zero, NaN or empty does, and every
compound value does. -/
def isTruthy : Value → Bool
  | undefined => false
  | null => false
  | boolean b => b
  | number x => !Double.isZero x && !Double.isNaN x
  | bigint n => n.val ≠ 0
  | string s => s ≠ ""
  | blob bytes => !bytes.isEmpty
  | array _ _ => true
  | object _ _ => true
  | function _ _ => true

/-- The identity of a compound value. Texts and blobs have none. -/
def identity? : Value → Option Identity
  | array id _ => some id
  | object id _ => some id
  | function id _ => some id
  | _ => none

/-! ## Contents -/

def boolean? : Value → Option Bool
  | boolean b => some b
  | _ => none

def number? : Value → Option Float
  | number x => some x
  | _ => none

def bigint? : Value → Option Int128
  | bigint n => some n
  | _ => none

def string? : Value → Option String
  | string s => some s
  | _ => none

def blob? : Value → Option Bytes
  | blob bytes => some bytes
  | _ => none

def array? : Value → Option (List Value)
  | array _ items => some items
  | _ => none

def object? : Value → Option (Object Value)
  | object _ entries => some entries
  | _ => none

/-- The value of a key, if this is an object that has it. -/
def get? (v : Value) (key : String) : Option Value := v.object?.bind (Object.get? key)

end Value

end LazyConfig
