-- Operators on values. Numbers follow binary floating point, whole numbers are exact or
-- overflow, and texts, blobs and arrays are joined by addition. Nothing is converted.
import LazyConfig.Value.Equality
import LazyConfig.Value.RuntimeError

namespace LazyConfig

/-- How two doubles compare. NaN compares to nothing. -/
def Double.order? (x y : Float) : Option Ordering :=
  if isNaN x || isNaN y then none
  else if equals x y then some .eq
  else if x < y then some .lt
  else some .gt

namespace Value

/-! ## Arithmetic -/

/-- An exact result, or an overflow. -/
def exact (n : Option Int128) : Except RuntimeCause Value :=
  match n with
  | some n => .ok (.bigint n)
  | none => .error .overflow

/-- The fault of operands that an operator does not take. -/
def mismatch (op : BinaryOp) (left right : Value) : RuntimeCause :=
  .typeMismatch (.operands op left.typeName right.typeName)

/-- The sum of numbers, or the join of texts, of blobs or of arrays. A joined array is the new
value `fresh`. -/
def add (fresh : Identity) (left right : Value) : Except RuntimeCause Value :=
  match left, right with
  | .number a, .number b => .ok (.number (a + b))
  | .bigint a, .bigint b => exact (a.add? b)
  | .string a, .string b => .ok (.string (a ++ b))
  | .blob a, .blob b => .ok (.blob (a ++ b))
  | .array _ a, .array _ b => .ok (.array fresh (a ++ b))
  | _, _ => .error (mismatch .add left right)

def sub (left right : Value) : Except RuntimeCause Value :=
  match left, right with
  | .number a, .number b => .ok (.number (a - b))
  | .bigint a, .bigint b => exact (a.sub? b)
  | _, _ => .error (mismatch .sub left right)

def mul (left right : Value) : Except RuntimeCause Value :=
  match left, right with
  | .number a, .number b => .ok (.number (a * b))
  | .bigint a, .bigint b => exact (a.mul? b)
  | _, _ => .error (mismatch .mul left right)

def div (left right : Value) : Except RuntimeCause Value :=
  match left, right with
  | .number a, .number b => .ok (.number (a / b))
  | .bigint a, .bigint b => if b.val = 0 then .error .divisionByZero else exact (a.div? b)
  | _, _ => .error (mismatch .div left right)

def rem (left right : Value) : Except RuntimeCause Value :=
  match left, right with
  | .number a, .number b => .ok (.number (Double.remainder a b))
  | .bigint a, .bigint b => if b.val = 0 then .error .divisionByZero else exact (a.rem? b)
  | _, _ => .error (mismatch .rem left right)

/-! ## Comparison -/

/-- Compares numbers, whole numbers or texts, and gives what `holds` says of the outcome.
Comparisons with NaN are false. -/
def compare (op : BinaryOp) (holds : Ordering → Bool) (left right : Value) :
    Except RuntimeCause Value :=
  match left, right with
  | .number a, .number b => .ok (.boolean ((Double.order? a b).any holds))
  | .bigint a, .bigint b => .ok (.boolean (holds (compareOfLessAndEq a.val b.val)))
  | .string a, .string b => .ok (.boolean (holds (compareOfLessAndEq a b)))
  | _, _ => .error (mismatch op left right)

/-! ## All operators -/

/-- The value of a binary operator. A new array is the value `fresh`. -/
def binary (fresh : Identity) (op : BinaryOp) (left right : Value) : Except RuntimeCause Value :=
  match op with
  | .or => .ok (if left.isTruthy then left else right)
  | .and => .ok (if left.isTruthy then right else left)
  | .eq | .strictEq => .ok (.boolean (strictEquals left right))
  | .ne | .strictNe => .ok (.boolean (!strictEquals left right))
  | .lt => compare .lt (· = .lt) left right
  | .le => compare .le (· ≠ .gt) left right
  | .gt => compare .gt (· = .gt) left right
  | .ge => compare .ge (· ≠ .lt) left right
  | .add => add fresh left right
  | .sub => sub left right
  | .mul => mul left right
  | .div => div left right
  | .rem => rem left right

/-- The value of a unary operator. -/
def unary (op : UnaryOp) (operand : Value) : Except RuntimeCause Value :=
  match op, operand with
  | .neg, .number x => .ok (.number (-x))
  | .neg, .bigint n => exact n.neg?
  | .neg, other => .error (.typeMismatch (.negation other.typeName))
  | .not, v => .ok (.boolean (!v.isTruthy))

end Value

end LazyConfig
