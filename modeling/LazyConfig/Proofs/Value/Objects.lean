-- Objects that are built up entry by entry: a key stands where it came first, and has the value
-- that came last.
-- Main statements: the keys and the values of an object after a list of entries.
import LazyConfig.Proofs.Document.Declared
import LazyConfig.Value.Object

namespace LazyConfig.Object

variable {α : Type}

theorem extend_append (o : Object α) (entries more : List (String × α)) :
    extend o (entries ++ more) = extend (extend o entries) more := by
  induction entries generalizing o with
  | nil => rfl
  | cons e rest ih => exact ih (insert e.1 e.2 o)

theorem eraseDups_eq_self {l : List String} (h : l.Nodup) : l.eraseDups = l := by
  induction l with
  | nil => rfl
  | cons a rest ih =>
    obtain ⟨hnot, hrest⟩ := List.nodup_cons.mp h
    have hall : rest.filter (fun b => !b == a) = rest := by
      apply List.filter_eq_self.mpr
      intro b hb
      have hne : b ≠ a := fun heq => hnot (heq ▸ hb)
      simp [hne]
    rw [List.eraseDups_cons, hall, ih hrest]

/-- The keys are those of the object and of the entries, each where it came first. -/
theorem keys_extend {o : Object α} (h : (keys o).Nodup) (entries : List (String × α)) :
    keys (extend o entries) = (keys o ++ entries.map Prod.fst).eraseDups := by
  induction entries generalizing o with
  | nil => rw [extend, List.map_nil, List.append_nil, eraseDups_eq_self h]
  | cons e rest ih =>
    obtain ⟨key, value⟩ := e
    rw [extend, ih (nodup_keys_insert h key value), keys_insert, List.map_cons]
    by_cases hmem : key ∈ keys o
    · rw [if_pos hmem, List.eraseDups_append, List.eraseDups_append]
      congr 2
      simp [List.removeAll, hmem]
    · rw [if_neg hmem, List.append_assoc, List.singleton_append]

/-- A key has its last value among the entries or, if it is not among them, the one it had. -/
theorem get?_extend (key : String) (o : Object α) (entries : List (String × α)) :
    get? key (extend o entries) = (lastUnder? key entries).or (get? key o) := by
  induction entries generalizing o with
  | nil => rfl
  | cons e rest ih =>
    obtain ⟨other, value⟩ := e
    rw [extend, ih, get?_insert, lastUnder?_cons, Option.or_assoc]
    by_cases h : key = other
    · simp [h]
    · simp [h]

theorem get?_eq_none {key : String} {o : Object α} (h : key ∉ keys o) : get? key o = none := by
  induction o with
  | nil => rfl
  | cons e rest ih =>
    rw [keys_cons, List.mem_cons, not_or] at h
    rw [get?, if_neg (Ne.symm h.1), ih h.2]

/-- An object made of entries has each key where the key came first, with its last value. -/
theorem keys_ofEntries (entries : List (String × α)) :
    keys (ofEntries entries) = (entries.map Prod.fst).eraseDups := by
  have hnil : (keys ([] : Object α)).Nodup := List.nodup_nil
  exact keys_extend hnil entries

theorem get?_ofEntries (key : String) (entries : List (String × α)) :
    get? key (ofEntries entries) = lastUnder? key entries := by
  rw [ofEntries, get?_extend]
  simp [get?]

/-- Objects with the same keys in the same order, and the same value for each key, are the same. -/
theorem eq_of_get? {o o' : Object α} (hnodup : (keys o).Nodup) (hkeys : keys o' = keys o)
    (hget : ∀ key, get? key o' = get? key o) : o' = o := by
  induction o generalizing o' with
  | nil => exact List.map_eq_nil_iff.mp hkeys
  | cons e rest ih =>
    obtain ⟨key, value⟩ := e
    cases o' with
    | nil => cases hkeys
    | cons e' rest' =>
      obtain ⟨key', value'⟩ := e'
      obtain ⟨hkey, hrest⟩ : key' = key ∧ keys rest' = keys rest := List.cons.inj hkeys
      subst hkey
      obtain ⟨hnew, hnodup⟩ := List.nodup_cons.mp hnodup
      have hvalue : value' = value := by simpa [get?] using hget key'
      rw [hvalue, ih hnodup hrest fun other => ?_]
      by_cases hother : other = key'
      · rw [hother, get?_eq_none (hrest ▸ hnew), get?_eq_none hnew]
      · simpa [get?, Ne.symm hother] using hget other

theorem lastUnder?_map (value : String → α) {key : String} {entries : List (String × α)}
    (h : key ∈ keys entries) :
    lastUnder? key (entries.map fun e => (e.1, value e.1)) = some (value key) := by
  induction entries with
  | nil => cases h
  | cons e rest ih =>
    rw [List.map_cons, lastUnder?_cons]
    by_cases hrest : key ∈ keys rest
    · rw [ih hrest, Option.some_or]
    · have heq : key = e.1 := (List.mem_cons.mp h).resolve_right hrest
      have hnone : lastUnder? key (rest.map fun e => (e.1, value e.1)) = none := by
        rw [← Option.not_isSome_iff_eq_none, lastUnder?_isSome, List.map_map]
        exact hrest
      rw [hnone, Option.none_or, if_pos heq, heq]

/-- Only the last values of the keys count. -/
theorem ofEntries_lastUnder? [Inhabited α] (entries : List (String × α)) :
    ofEntries (entries.map fun e => (e.1, (lastUnder? e.1 entries).getD default)) =
    ofEntries entries := by
  let last (key : String) : α := (lastUnder? key entries).getD default
  have hkeys : keys (ofEntries (entries.map fun e => (e.1, last e.1))) =
      keys (ofEntries entries) := by
    rw [keys_ofEntries, keys_ofEntries, List.map_map]
    rfl
  have hnil : (keys ([] : Object α)).Nodup := List.nodup_nil
  have hnodup : (keys (ofEntries entries)).Nodup := nodup_keys_extend hnil entries
  refine eq_of_get? hnodup hkeys fun key => ?_
  by_cases hkey : key ∈ keys entries
  · obtain ⟨value, hvalue⟩ := Option.isSome_iff_exists.mp (lastUnder?_isSome.mpr hkey)
    rw [get?_ofEntries, get?_ofEntries, lastUnder?_map last hkey, hvalue]
    show some ((lastUnder? key entries).getD default) = some value
    rw [hvalue, Option.getD_some]
  · have hnone : key ∉ keys (ofEntries entries) := by
      rw [keys_ofEntries, List.mem_eraseDups]
      exact hkey
    rw [get?_eq_none hnone, get?_eq_none (hkeys ▸ hnone)]

end LazyConfig.Object
