-- The paths that a document declares, read off its tree: an object literal declares its own path
-- and below it, key by key, what the last property with the key does. The bindings of the document
-- are bound to these paths in this order.
-- Main statement: the paths of the bindings are the ones declared.
import LazyConfig.Document.Bindings
import Mathlib.Data.List.Dedup

namespace LazyConfig

/-! ## Tables of keys -/

section

variable {β : Type}

/-- The last entry of a key. -/
def lastUnder? (key : String) (table : List (String × β)) : Option β := table.reverse.lookup key

/-- The last entries of all keys, in the order in which the table has them. -/
def lastEntries (table : List (String × List β)) : List β :=
  (table.map (·.1)).dedup.flatMap fun key => (lastUnder? key table).getD []

theorem lastUnder?_cons (key other : String) (entry : β) (later : List (String × β)) :
    lastUnder? key ((other, entry) :: later) =
      (lastUnder? key later).or (if key = other then some entry else none) := by
  rw [lastUnder?, List.reverse_cons, List.lookup_append, lastUnder?, List.lookup_cons]
  by_cases h : key = other
  · rw [if_pos h, beq_iff_eq.mpr h]
  · rw [if_neg h, beq_eq_false_iff_ne.mpr h, List.lookup_nil]

theorem lastUnder?_isSome {key : String} {table : List (String × β)} :
    (lastUnder? key table).isSome ↔ key ∈ table.map (·.1) := by
  induction table with
  | nil => simp [lastUnder?]
  | cons entry later ih =>
    obtain ⟨other, entry⟩ := entry
    rw [lastUnder?_cons, Option.isSome_or, Bool.or_eq_true, ih, List.map_cons, List.mem_cons]
    by_cases h : key = other <;> simp [h]

/-- Among keys that the table goes on with, an entry before it does not count. -/
theorem flatMap_lastUnder?_cons {keys : List String} {later : List (String × List β)}
    (hkeys : ∀ key ∈ keys, key ∈ later.map (·.1)) (other : String) (entry : List β) :
    (keys.flatMap fun key => (lastUnder? key ((other, entry) :: later)).getD []) =
      keys.flatMap fun key => (lastUnder? key later).getD [] := by
  apply List.flatMap_congr
  intro key hkey
  obtain ⟨found, hfound⟩ := Option.isSome_iff_exists.mp (lastUnder?_isSome.mpr (hkeys key hkey))
  rw [lastUnder?_cons, hfound, Option.some_or]

theorem lastEntries_cons_of_mem {key : String} {later : List (String × List β)}
    (h : key ∈ later.map (·.1)) (entry : List β) :
    lastEntries ((key, entry) :: later) = lastEntries later := by
  rw [lastEntries, List.map_cons, List.dedup_cons_of_mem h,
    flatMap_lastUnder?_cons fun _ => List.mem_dedup.mp]
  rfl

theorem lastEntries_cons_of_notMem {key : String} {later : List (String × List β)}
    (h : key ∉ later.map (·.1)) (entry : List β) :
    lastEntries ((key, entry) :: later) = entry ++ lastEntries later := by
  have hnone : lastUnder? key later = none := by
    rw [← Option.not_isSome_iff_eq_none, lastUnder?_isSome]
    exact h
  have hentry : lastUnder? key ((key, entry) :: later) = some entry := by
    rw [lastUnder?_cons, hnone, if_pos rfl, Option.none_or]
  rw [lastEntries, List.map_cons, List.dedup_cons_of_notMem h, List.flatMap_cons, hentry,
    flatMap_lastUnder?_cons fun _ => List.mem_dedup.mp]
  rfl

end

/-! ## Declared paths -/

mutual

/-- The paths that an expression at a path declares: this one and, if it is an object literal, for
each key those of the last property with the key, in the order of these properties. -/
def Expr.declared (path : String) : Expr → List String
  | .object _ members => path :: lastEntries (Member.declared path members)
  | _ => [path]

/-- What each property of an object literal declares. -/
def Member.declared (path : String) : List Member → List (String × List String)
  | [] => []
  | .property key value :: later =>
    (key, value.declared (childPath path key)) :: Member.declared path later
  | .spread _ :: later => Member.declared path later

end

theorem isOverridden_iff (key path : String) {later : List Member} :
    isOverridden key later = true ↔ key ∈ (Member.declared path later).map (·.1) := by
  induction later with
  | nil => simp [isOverridden, Member.declared]
  | cons m later ih =>
    cases m with
    | property other value =>
      rw [Member.declared, List.map_cons, List.mem_cons, ← ih, @eq_comm _ key]
      simp [isOverridden, Member.key?]
    | spread e =>
      rw [Member.declared, ← ih]
      simp [isOverridden, Member.key?]

mutual

theorem map_path_bindingsAt : (e : Expr) → (scopes : List String) → (path : String) →
    (bindingsAt scopes path e).map (·.path) = e.declared path
  | .object _ members, scopes, path => by
    rw [bindingsAt, List.map_cons, map_path_memberBindings members, Expr.declared]
  | .number .., _, _ | .string .., _, _ | .boolean .., _, _ | .null .., _, _ | .blob .., _, _
  | .identifier .., _, _ | .relative .., _, _ | .array .., _, _ | .call .., _, _
  | .lambda .., _, _ | .binary .., _, _ | .unary .., _, _ => rfl

theorem map_path_memberBindings : (members : List Member) → (scopes : List String) →
    (path : String) → (memberBindings scopes path members).map (·.path) =
      lastEntries (Member.declared path members)
  | [], _, _ => rfl
  | .spread _ :: later, scopes, path => by
    rw [memberBindings, Member.declared, map_path_memberBindings later]
  | .property key value :: later, scopes, path => by
    have hlater := map_path_memberBindings later scopes path
    rw [memberBindings, Member.declared]
    by_cases h : isOverridden key later = true
    · rw [if_pos h, hlater, lastEntries_cons_of_mem ((isOverridden_iff key path).mp h)]
    · rw [if_neg h, List.map_append, hlater, map_path_bindingsAt value,
        lastEntries_cons_of_notMem fun hmem => h ((isOverridden_iff key path).mpr hmem)]

end

/-- The bindings of a document are bound to the paths that it declares. -/
theorem map_path_documentBindings (name : String) (root : Expr) :
    (documentBindings name root).map (·.path) = root.declared name :=
  map_path_bindingsAt root [] name

end LazyConfig
