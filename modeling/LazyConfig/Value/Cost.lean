-- The cost of a value, which the space quota counts: a unit for each plain value, one for
-- each character or byte of a text, and for a compound value its size and the cost of what
-- is in it. What was counted before costs nothing again. Sums stop at the largest number of
-- 64 bits.
import LazyConfig.Value.Basic

namespace LazyConfig.Value

/-- The most that anything costs. -/
def maxCost : Nat := UInt64.size - 1

/-- Two costs together. -/
def costSum (n m : Nat) : Nat := min (n + m) maxCost

mutual

/-- The cost of a value after the compound values `seen`, and the ones seen then. -/
def costAfter (seen : List Identity) : Value → Nat × List Identity
  | string s => (s.length, seen)
  | blob bytes => (bytes.length, seen)
  | array id items =>
    if id ∈ seen then (0, seen)
    else
      let (n, seen) := itemsCost (id :: seen) items
      (costSum items.length n, seen)
  | object id entries =>
    if id ∈ seen then (0, seen)
    else
      let (n, seen) := entriesCost (id :: seen) entries
      (costSum entries.length n, seen)
  | _ => (1, seen)

/-- The cost of values one after another. -/
def itemsCost (seen : List Identity) : List Value → Nat × List Identity
  | [] => (0, seen)
  | v :: vs =>
    let (n, seen) := costAfter seen v
    let (m, seen) := itemsCost seen vs
    (costSum n m, seen)

/-- The cost of entries one after another: the characters of each key, and its value. -/
def entriesCost (seen : List Identity) : List (String × Value) → Nat × List Identity
  | [] => (0, seen)
  | (key, v) :: rest =>
    let (n, seen) := costAfter seen v
    let (m, seen) := entriesCost seen rest
    (costSum (costSum key.length n) m, seen)

end

/-- The cost of a value by itself. -/
def cost (v : Value) : Nat := (costAfter [] v).1

/-- The costs of values, each after the ones before it. -/
def costs (seen : List Identity) : List Value → List Nat
  | [] => []
  | v :: vs =>
    let (n, seen) := costAfter seen v
    n :: costs seen vs

end LazyConfig.Value
