-- Ordered objects: entries with distinct keys, in the order in which the keys came first.
-- Writing a key that is there replaces its entry in place.
-- Main statements: what `get?` finds after a write, and a write keeps the keys distinct and
-- in their order.
namespace LazyConfig

/-- The entries of an object. -/
abbrev Object (α : Type) := List (String × α)

namespace Object

variable {α : Type}

/-- Sets a key: in place if it is there, else as the last entry. -/
def insert (key : String) (value : α) : Object α → Object α
  | [] => [(key, value)]
  | (k, v) :: rest =>
    if k = key then (k, value) :: rest else (k, v) :: insert key value rest

/-- Sets every entry of the second object in the first. -/
def extend (o : Object α) : Object α → Object α
  | [] => o
  | (k, v) :: rest => extend (insert k v o) rest

/-- The object of a list of entries, later ones over earlier ones. -/
def ofEntries (entries : List (String × α)) : Object α := extend [] entries

/-- The value of a key. -/
def get? (key : String) : Object α → Option α
  | [] => none
  | (k, v) :: rest => if k = key then some v else get? key rest

/-- The keys in order. -/
def keys (o : Object α) : List String := o.map Prod.fst

/-! ## Small facts -/

@[simp] theorem keys_nil : keys ([] : Object α) = [] := rfl

@[simp] theorem keys_cons (e : String × α) (o : Object α) : keys (e :: o) = e.1 :: keys o := rfl

theorem get?_insert (key other : String) (value : α) (o : Object α) :
    get? other (insert key value o) = if other = key then some value else get? other o := by
  induction o with
  | nil =>
    by_cases h : other = key
    · simp [insert, get?, h]
    · simp [insert, get?, h, Ne.symm h]
  | cons e rest ih =>
    obtain ⟨k, v⟩ := e
    by_cases hk : k = key
    · subst hk
      by_cases h : other = k
      · simp [insert, get?, h]
      · simp [insert, get?, h, Ne.symm h]
    · by_cases h : other = key
      · subst h
        simp [insert, get?, hk, ih]
      · simp [insert, get?, hk, ih, h]

theorem keys_insert (key : String) (value : α) (o : Object α) :
    keys (insert key value o) = if key ∈ keys o then keys o else keys o ++ [key] := by
  induction o with
  | nil => rfl
  | cons e rest ih =>
    obtain ⟨k, v⟩ := e
    by_cases hk : k = key
    · simp [insert, hk]
    · rw [insert, if_neg hk, keys_cons, ih]
      by_cases h : key ∈ keys rest
      · simp [h]
      · simp [h, Ne.symm hk]

theorem nodup_keys_insert {o : Object α} (h : (keys o).Nodup) (key : String) (value : α) :
    (keys (insert key value o)).Nodup := by
  rw [keys_insert]
  split
  · exact h
  · next hk =>
    rw [List.nodup_append]
    refine ⟨h, by simp, ?_⟩
    intro a ha b hb
    simp only [List.mem_singleton] at hb
    subst hb
    rintro rfl
    exact hk ha

theorem nodup_keys_extend {o : Object α} (h : (keys o).Nodup) (entries : Object α) :
    (keys (extend o entries)).Nodup := by
  induction entries generalizing o with
  | nil => exact h
  | cons e rest ih => exact ih (nodup_keys_insert h e.1 e.2)

end Object

end LazyConfig
