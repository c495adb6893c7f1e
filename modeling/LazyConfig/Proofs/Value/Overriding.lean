-- Objects over one another. To extend an object by another one writes each of its keys: what the
-- other one says of a key counts, and a key stays where it came first.
-- Main statement: the laws of extension for all objects that are built by writing keys.
import LazyConfig.Proofs.Value.Objects

namespace LazyConfig.Object

variable {α : Type} {a b c : Object α}

/-! ## Objects that are built -/

/-- The object is made from nothing or from a list of entries by writing keys and by extension. -/
inductive Built : Object α → Prop
  | empty : Built []
  | insert (key : String) (value : α) {o : Object α} (h : Built o) : Built (o.insert key value)
  | extend {o more : Object α} (h : Built o) (hmore : Built more) : Built (o.extend more)
  | ofEntries (entries : List (String × α)) : Built (ofEntries entries)

theorem Built.nodup_keys {o : Object α} (h : Built o) : (keys o).Nodup := by
  induction h with
  | empty => exact List.nodup_nil
  | insert key value _ ih => exact nodup_keys_insert ih key value
  | extend _ _ ih _ => exact nodup_keys_extend ih _
  | ofEntries entries => exact nodup_keys_extend (o := []) List.nodup_nil entries

/-! ## One object over another one -/

/-- Where no key is repeated, the last value of a key is its value. -/
theorem lastUnder?_of_nodup (h : (keys b).Nodup) (key : String) :
    lastUnder? key b = get? key b := by
  induction b with
  | nil => rfl
  | cons e rest ih =>
    obtain ⟨hnew, hrest⟩ := List.nodup_cons.mp h
    rw [lastUnder?_cons, ih hrest, get?]
    by_cases hkey : e.1 = key
    · rw [if_pos hkey.symm, if_pos hkey, ← hkey, get?_eq_none hnew, Option.none_or]
    · rw [if_neg (Ne.symm hkey), if_neg hkey, Option.or_none]

/-- A key has the value that the object on top gives it, or else the one below. -/
theorem get?_override (hb : (keys b).Nodup) (key : String) :
    get? key (extend a b) = (get? key b).or (get? key a) := by
  rw [get?_extend, lastUnder?_of_nodup hb]

/-- The keys below come first, then the new ones of the object on top. -/
theorem keys_override (ha : (keys a).Nodup) (hb : (keys b).Nodup) :
    keys (extend a b) = keys a ++ (keys b).filter (· ∉ keys a) := by
  have hnew : (b.map Prod.fst).removeAll (keys a) = (keys b).filter (· ∉ keys a) :=
    List.filter_congr fun key _ => by simp
  rw [keys_extend ha, List.eraseDups_append, eraseDups_eq_self ha, hnew,
    eraseDups_eq_self (hb.filter _)]

theorem extend_assoc (ha : (keys a).Nodup) (hb : (keys b).Nodup) (hc : (keys c).Nodup) :
    extend (extend a b) c = extend a (extend b c) := by
  have hab : (keys (extend a b)).Nodup := nodup_keys_extend ha b
  have hbc : (keys (extend b c)).Nodup := nodup_keys_extend hb c
  refine eq_of_get? (nodup_keys_extend ha _) ?_ fun key => ?_
  · have hnew : (keys c).filter (· ∉ keys a ++ (keys b).filter (· ∉ keys a)) =
        ((keys c).filter (· ∉ keys b)).filter (· ∉ keys a) := by
      rw [List.filter_filter]
      refine List.filter_congr fun key _ => ?_
      by_cases hkey : key ∈ keys a <;> simp [hkey]
    rw [keys_override hab hc, keys_override ha hbc, keys_override hb hc, keys_override ha hb, hnew,
      List.filter_append, List.append_assoc]
  · rw [get?_override hc, get?_override hb, get?_override hbc, get?_override hc, Option.or_assoc]

theorem extend_empty_left (ha : (keys a).Nodup) : extend [] a = a := by
  have hnil : (keys ([] : Object α)).Nodup := List.nodup_nil
  refine eq_of_get? ha ?_ fun key => ?_
  · rw [keys_override hnil ha]
    simp
  · rw [get?_override ha]
    exact Option.or_none

theorem extend_self (ha : (keys a).Nodup) : extend a a = a := by
  refine eq_of_get? ha ?_ fun key => ?_
  · rw [keys_override ha ha]
    simp
  · rw [get?_override ha, Option.or_self]

/-- Objects that are built have no key twice. Extension is associative and idempotent on them, and
the empty object is neutral. The keys below come first and then the new ones on top, in the order of
either, and what is on top counts. To write one key is to extend by the object of this entry. -/
theorem extension_is_an_override_monoid (ha : Built a) (hb : Built b) (hc : Built c) :
    (keys a).Nodup ∧
      extend (extend a b) c = extend a (extend b c) ∧
      extend a [] = a ∧ extend [] a = a ∧
      extend a a = a ∧
      keys (extend a b) = keys a ++ (keys b).filter (· ∉ keys a) ∧
      (∀ key, get? key (extend a b) = (get? key b).or (get? key a)) ∧
      ∀ key value, insert key value a = extend a (insert key value []) :=
  ⟨ha.nodup_keys, extend_assoc ha.nodup_keys hb.nodup_keys hc.nodup_keys, rfl,
    extend_empty_left ha.nodup_keys, extend_self ha.nodup_keys,
    keys_override ha.nodup_keys hb.nodup_keys, get?_override hb.nodup_keys, fun _ _ => rfl⟩

/-- Objects that share keys, with a key that is written twice in the first one. -/
theorem extension_is_an_override_monoid_for_numbers :
    let a : Object Nat := ofEntries [("a", 1), ("b", 2), ("a", 3)]
    let b : Object Nat := insert "b" 0 (insert "c" 4 [])
    let c : Object Nat := extend b (insert "a" 5 [])
    Built a ∧ Built b ∧ Built c ∧
      extend (extend b a) c = extend b (extend a c) ∧
      extend b a = [("c", 4), ("b", 2), ("a", 3)] ∧
      keys (extend b a) = keys b ++ (keys a).filter (· ∉ keys b) := by
  intro a b c
  have ha : Built a := .ofEntries _
  have hb : Built b := .insert _ _ (.insert _ _ .empty)
  have hc : Built c := .extend hb (.insert _ _ .empty)
  obtain ⟨_, hassoc, _, _, _, hkeys, _⟩ := extension_is_an_override_monoid hb ha hc
  exact ⟨ha, hb, hc, hassoc, by decide, hkeys⟩

end LazyConfig.Object
