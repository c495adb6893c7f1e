-- Values without identities, which is what two evaluations of one expression have in common: what a
-- value looks like, and a bound of what it costs.
-- Main statement: a value costs no more than what it looks like.
import LazyConfig.Value.Cost

namespace LazyConfig

instance : Inhabited Identity := ⟨⟨"", 0⟩⟩

/-! ## Values without identities -/

namespace Value

mutual

/-- The value with no identity of its own, nor of what is in it. -/
def bare : Value → Value
  | array _ items => array default (bareItems items)
  | object _ entries => object default (bareEntries entries)
  | v => v

/-- The values without identities. -/
def bareItems : List Value → List Value
  | [] => []
  | v :: vs => v.bare :: bareItems vs

/-- The entries without identities. -/
def bareEntries : List (String × Value) → List (String × Value)
  | [] => []
  | (key, v) :: rest => (key, v.bare) :: bareEntries rest

end

theorem bareItems_eq_map (items : List Value) : bareItems items = items.map bare := by
  induction items with
  | nil => rfl
  | cons v vs ih => rw [bareItems, ih, List.map_cons]

theorem bareEntries_eq_map (entries : List (String × Value)) :
    bareEntries entries = entries.map fun e => (e.1, e.2.bare) := by
  induction entries with
  | nil => rfl
  | cons e rest ih => rw [bareEntries, ih, List.map_cons]

theorem keys_bareEntries (entries : List (String × Value)) :
    Object.keys (bareEntries entries) = Object.keys entries := by
  simp [bareEntries_eq_map, Object.keys]

/-! ## What values cost at most -/

mutual

/-- The cost of a value if nothing in it is shared. -/
def size : Value → Nat
  | string s => s.length
  | blob bytes => bytes.length
  | array _ items => items.length + itemsSize items
  | object _ entries => entries.length + entriesSize entries
  | _ => 1

def itemsSize : List Value → Nat
  | [] => 0
  | v :: vs => v.size + itemsSize vs

def entriesSize : List (String × Value) → Nat
  | [] => 0
  | (key, v) :: rest => key.length + v.size + entriesSize rest

end

theorem costSum_le (n m : Nat) : costSum n m ≤ n + m := Nat.min_le_left _ _

mutual

theorem costAfter_le (seen : List Identity) : (v : Value) → (costAfter seen v).1 ≤ v.size
  | undefined | null | boolean _ | number _ | bigint _ | string _ | blob _ | function _ _ =>
    Nat.le_refl _
  | array id items => by
    have hitems := itemsCost_le (id :: seen) items
    have hsum := costSum_le items.length (itemsCost (id :: seen) items).1
    unfold costAfter size
    split
    · exact Nat.zero_le _
    · exact Nat.le_trans hsum (by omega)
  | object id entries => by
    have hentries := entriesCost_le (id :: seen) entries
    have hsum := costSum_le entries.length (entriesCost (id :: seen) entries).1
    unfold costAfter size
    split
    · exact Nat.zero_le _
    · exact Nat.le_trans hsum (by omega)

theorem itemsCost_le (seen : List Identity) :
    (vs : List Value) → (itemsCost seen vs).1 ≤ itemsSize vs
  | [] => Nat.le_refl _
  | v :: vs => by
    have hv := costAfter_le seen v
    have hvs := itemsCost_le (costAfter seen v).2 vs
    have hsum := costSum_le (costAfter seen v).1 (itemsCost (costAfter seen v).2 vs).1
    unfold itemsCost itemsSize
    exact Nat.le_trans hsum (by omega)

theorem entriesCost_le (seen : List Identity) :
    (entries : List (String × Value)) → (entriesCost seen entries).1 ≤ entriesSize entries
  | [] => Nat.le_refl _
  | (key, v) :: rest => by
    have hv := costAfter_le seen v
    have hrest := entriesCost_le (costAfter seen v).2 rest
    have hkey := costSum_le key.length (costAfter seen v).1
    have hsum := costSum_le (costSum key.length (costAfter seen v).1)
      (entriesCost (costAfter seen v).2 rest).1
    unfold entriesCost entriesSize
    exact Nat.le_trans hsum (by omega)

end

mutual

theorem size_bare : (v : Value) → v.bare.size = v.size
  | undefined | null | boolean _ | number _ | bigint _ | string _ | blob _ | function _ _ => rfl
  | array _ items => by
    rw [bare, size, size, itemsSize_bare items, bareItems_eq_map, List.length_map]
  | object _ entries => by
    rw [bare, size, size, entriesSize_bare entries, bareEntries_eq_map, List.length_map]

theorem itemsSize_bare : (vs : List Value) → itemsSize (bareItems vs) = itemsSize vs
  | [] => rfl
  | v :: vs => by rw [bareItems, itemsSize, itemsSize, size_bare v, itemsSize_bare vs]

theorem entriesSize_bare : (entries : List (String × Value)) →
    entriesSize (bareEntries entries) = entriesSize entries
  | [] => rfl
  | (key, v) :: rest => by
    rw [bareEntries, entriesSize, entriesSize, size_bare v, entriesSize_bare rest]

end

/-- The cost of a value is at most its size, which identities do not matter to. -/
theorem cost_le_size (v : Value) : v.cost ≤ v.bare.size := by
  rw [size_bare]
  exact costAfter_le [] v

end Value

end LazyConfig
