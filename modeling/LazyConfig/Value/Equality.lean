-- The two equalities of values. Strict equality compares plain values by content and
-- compound values by identity. Structural equality looks inside arrays and objects.
import LazyConfig.Value.Basic

namespace LazyConfig.Value

/-- Equality of plain values by content, and of compound values by identity. -/
def strictEquals (a b : Value) : Bool :=
  match a, b with
  | undefined, undefined => true
  | null, null => true
  | boolean x, boolean y => x = y
  | number x, number y => Double.equals x y
  | bigint x, bigint y => x = y
  | string x, string y => x = y
  | blob x, blob y => x = y
  | a, b =>
    match a.identity?, b.identity? with
    | some x, some y => x = y
    | _, _ => false

mutual

/-- Equality by content. Functions are equal only to themselves. -/
def equals : Value → Value → Bool
  | array _ xs, array _ ys => equalItems xs ys
  | object _ xs, object _ ys => equalEntries xs ys
  | a, b => strictEquals a b

/-- Equal elements in the same order. -/
def equalItems : List Value → List Value → Bool
  | [], [] => true
  | x :: xs, y :: ys => equals x y && equalItems xs ys
  | _, _ => false

/-- Equal entries in the same order. -/
def equalEntries : List (String × Value) → List (String × Value) → Bool
  | [], [] => true
  | (j, x) :: xs, (k, y) :: ys => j = k && equals x y && equalEntries xs ys
  | _, _ => false

end

end LazyConfig.Value
