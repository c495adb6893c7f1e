-- The scopes that a value still refers to: those that the lambdas in it were written in.
-- Main statement: they are the scopes of what the value can still evaluate.
import LazyConfig.Proofs.Value.Closures

namespace LazyConfig

mutual

/-- The scopes of the lambdas in a value. -/
def Value.scopes : Value → List String
  | .array _ items => Value.itemScopes items
  | .object _ entries => Value.entryScopes entries
  | .function _ f => f.scopes
  | _ => []

def Function.scopes : Function → List String
  | .lambda _ _ scopes env => scopes ++ Value.entryScopes env
  | _ => []

def Value.itemScopes : List Value → List String
  | [] => []
  | v :: vs => v.scopes ++ Value.itemScopes vs

def Value.entryScopes : List (String × Value) → List String
  | [] => []
  | (_, v) :: rest => v.scopes ++ Value.entryScopes rest

end

mutual

/-- The scopes of a value are those of the lambdas in it. -/
theorem Value.mem_scopes {scope : String} : (v : Value) →
    (scope ∈ v.scopes ↔ ∃ c ∈ v.closures, scope ∈ c.scopes)
  | .array _ items => Value.mem_itemScopes items
  | .object _ entries => Value.mem_entryScopes entries
  | .function _ f => Function.mem_scopes f
  | .undefined | .null | .boolean _ | .number _ | .bigint _ | .string _ | .blob _ => by
    simp [Value.scopes, Value.closures]

theorem Function.mem_scopes {scope : String} : (f : Function) →
    (scope ∈ f.scopes ↔ ∃ c ∈ f.closures, scope ∈ c.scopes)
  | .lambda _ body scopes env => by
    simp only [Function.scopes, Function.closures, List.mem_append, List.mem_cons,
      Value.mem_entryScopes env]
    simp
  | .builtin _ | .host _ => by simp [Function.scopes, Function.closures]

theorem Value.mem_itemScopes {scope : String} : (items : List Value) →
    (scope ∈ Value.itemScopes items ↔ ∃ c ∈ Value.itemClosures items, scope ∈ c.scopes)
  | [] => by simp [Value.itemScopes, Value.itemClosures]
  | v :: vs => by
    rw [Value.itemScopes, Value.itemClosures, List.mem_append, Value.mem_scopes v,
      Value.mem_itemScopes vs]
    simp only [List.mem_append, or_and_right, exists_or]

theorem Value.mem_entryScopes {scope : String} : (entries : List (String × Value)) →
    (scope ∈ Value.entryScopes entries ↔ ∃ c ∈ Value.entryClosures entries, scope ∈ c.scopes)
  | [] => by simp [Value.entryScopes, Value.entryClosures]
  | (_, v) :: rest => by
    rw [Value.entryScopes, Value.entryClosures, List.mem_append, Value.mem_scopes v,
      Value.mem_entryScopes rest]
    simp only [List.mem_append, or_and_right, exists_or]

end

end LazyConfig
