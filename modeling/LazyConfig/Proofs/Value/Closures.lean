-- What a value can still evaluate: the bodies of the lambdas in it, each in the scopes it was
-- written in. A value made from others has no other lambdas than they have.
-- Main statements: one for each way to make a value from values.
import LazyConfig.Value.Literal
import LazyConfig.Value.Operation

namespace LazyConfig

/-- The body of a lambda, with the scopes around it, and the parameters of this lambda and of those
around, innermost first. -/
structure Closure where
  scopes : List String
  names : List String
  body : Expr

mutual

/-- The lambdas in a value, and those in the arguments that they were made with. -/
def Value.closures : Value → List Closure
  | .array _ items => Value.itemClosures items
  | .object _ entries => Value.entryClosures entries
  | .function _ f => f.closures
  | _ => []

def Function.closures : Function → List Closure
  | .lambda params body scopes env =>
    ⟨scopes, params ++ env.map (·.1), body⟩ :: Value.entryClosures env
  | _ => []

def Value.itemClosures : List Value → List Closure
  | [] => []
  | v :: vs => v.closures ++ Value.itemClosures vs

def Value.entryClosures : List (String × Value) → List Closure
  | [] => []
  | (_, v) :: rest => v.closures ++ Value.entryClosures rest

end

namespace Value

theorem mem_itemClosures {c : Closure} {items : List Value} :
    c ∈ itemClosures items ↔ ∃ v ∈ items, c ∈ v.closures := by
  induction items with
  | nil => simp [itemClosures]
  | cons v vs ih => simp [itemClosures, ih]

theorem mem_entryClosures {c : Closure} {entries : List (String × Value)} :
    c ∈ entryClosures entries ↔ ∃ e ∈ entries, c ∈ e.2.closures := by
  induction entries with
  | nil => simp [entryClosures]
  | cons e rest ih => simp [entryClosures, ih]

/-! ## Objects -/

theorem mem_entryClosures_insert {c : Closure} {key : String} {v : Value} {entries : Object Value}
    (h : c ∈ entryClosures (entries.insert key v)) :
    c ∈ v.closures ∨ c ∈ entryClosures entries := by
  induction entries with
  | nil => simpa [Object.insert, entryClosures] using h
  | cons e rest ih =>
    obtain ⟨k, w⟩ := e
    unfold Object.insert at h
    split at h
    · rcases List.mem_append.mp h with h | h
      · exact Or.inl h
      · exact Or.inr (List.mem_append_right _ h)
    · rcases List.mem_append.mp h with h | h
      · exact Or.inr (List.mem_append_left _ h)
      · rcases ih h with h | h
        · exact Or.inl h
        · exact Or.inr (List.mem_append_right _ h)

theorem mem_entryClosures_extend {c : Closure} {entries more : Object Value}
    (h : c ∈ entryClosures (entries.extend more)) :
    c ∈ entryClosures entries ∨ c ∈ entryClosures more := by
  induction more generalizing entries with
  | nil => exact Or.inl h
  | cons e rest ih =>
    obtain ⟨k, v⟩ := e
    rcases ih h with h | h
    · rcases mem_entryClosures_insert h with h | h
      · exact Or.inr (List.mem_append_left _ h)
      · exact Or.inl h
    · exact Or.inr (List.mem_append_right _ h)

/-! ## Calls -/

theorem mem_entryClosures_zip {c : Closure} {params : List String} {args : List Value}
    (h : c ∈ entryClosures (params.zip args)) : c ∈ itemClosures args := by
  obtain ⟨e, he, hc⟩ := mem_entryClosures.mp h
  exact mem_itemClosures.mpr ⟨e.2, (List.of_mem_zip he).2, hc⟩

theorem entryClosures_append (entries more : List (String × Value)) :
    entryClosures (entries ++ more) = entryClosures entries ++ entryClosures more := by
  induction entries with
  | nil => rfl
  | cons e rest ih => simp [entryClosures, ih]

theorem mem_closures_of_lookup {c : Closure} {name : String} {v : Value}
    {env : List (String × Value)} (hv : env.lookup name = some v) (h : c ∈ v.closures) :
    c ∈ entryClosures env := by
  induction env with
  | nil => simp at hv
  | cons e rest ih =>
    obtain ⟨k, w⟩ := e
    rw [List.lookup_cons] at hv
    split at hv
    · rw [Option.some.injEq] at hv
      exact List.mem_append_left _ (hv ▸ h)
    · exact List.mem_append_right _ (ih hv)

/-! ## Literals and operators -/

/-- Only compound values have lambdas in them. -/
theorem closures_of_plain {v : Value} (h : v.identity? = none) : v.closures = [] := by
  cases v with
  | array id items => cases h
  | object id entries => cases h
  | function id f => cases h
  | _ => rfl

theorem plain_ofNumber {text : String} {v : Value} (h : ofNumber text = .ok v) :
    v.identity? = none := by
  unfold ofNumber at h
  split at h
  · next v' hv =>
    rw [Except.ok.injEq] at h
    subst h
    unfold numberOfChars? at hv
    split at hv
    · obtain ⟨n, _, rfl⟩ := Option.map_eq_some_iff.mp hv
      rfl
    · obtain ⟨d, _, rfl⟩ := Option.map_eq_some_iff.mp hv
      rfl
  · cases h

theorem plain_ofBlob {form : BlobForm} {text : String} {v : Value}
    (h : ofBlob form text = .ok v) : v.identity? = none := by
  unfold ofBlob at h
  split at h
  · cases h
    rfl
  · cases h

theorem plain_exact {n : Option Int128} {v : Value} (h : exact n = .ok v) :
    v.identity? = none := by
  unfold Value.exact at h
  split at h
  · cases h
    rfl
  · cases h

theorem plain_unary {op : UnaryOp} {operand v : Value} (h : unary op operand = .ok v) :
    v.identity? = none := by
  unfold unary at h
  split at h
  · cases h
    rfl
  · exact plain_exact h
  · cases h
  · cases h
    rfl

theorem plain_compare {op : BinaryOp} {holds : Ordering → Bool} {left right v : Value}
    (h : compare op holds left right = .ok v) : v.identity? = none := by
  unfold Value.compare at h
  split at h <;> cases h <;> rfl

/-- A sum is plain, or an array of the items of both operands. -/
theorem mem_closures_add {fresh : Identity} {left right v : Value}
    (h : add fresh left right = .ok v) {c : Closure} (hc : c ∈ v.closures) :
    c ∈ left.closures ∨ c ∈ right.closures := by
  have hplain : v.identity? = none → c ∈ left.closures ∨ c ∈ right.closures := by
    intro hv
    rw [closures_of_plain hv] at hc
    cases hc
  unfold add at h
  split at h
  case h_5 =>
    cases h
    obtain ⟨w, hw, hc⟩ := mem_itemClosures.mp hc
    rcases List.mem_append.mp hw with hw | hw
    · exact Or.inl (mem_itemClosures.mpr ⟨w, hw, hc⟩)
    · exact Or.inr (mem_itemClosures.mpr ⟨w, hw, hc⟩)
  case h_2 => exact hplain (plain_exact h)
  case h_6 => cases h
  all_goals
    cases h
    exact hplain rfl

theorem plain_arithmetic {left right v : Value}
    (h : sub left right = .ok v ∨ mul left right = .ok v ∨ div left right = .ok v ∨
      rem left right = .ok v) : v.identity? = none := by
  rcases h with h | h | h | h
  · unfold sub at h
    split at h
    · cases h
      rfl
    · exact plain_exact h
    · cases h
  · unfold mul at h
    split at h
    · cases h
      rfl
    · exact plain_exact h
    · cases h
  · unfold div at h
    split at h
    · cases h
      rfl
    · split at h
      · cases h
      · exact plain_exact h
    · cases h
  · unfold rem at h
    split at h
    · cases h
      rfl
    · split at h
      · cases h
      · exact plain_exact h
    · cases h

/-- What an operator gives refers to nothing that its operands do not refer to. -/
theorem mem_closures_binary {fresh : Identity} {op : BinaryOp} {left right v : Value}
    (h : binary fresh op left right = .ok v) {c : Closure} (hc : c ∈ v.closures) :
    c ∈ left.closures ∨ c ∈ right.closures := by
  have hplain : v.identity? = none → c ∈ left.closures ∨ c ∈ right.closures := by
    intro hv
    rw [closures_of_plain hv] at hc
    cases hc
  unfold binary at h
  cases op with
  | or =>
    rw [Except.ok.injEq] at h
    subst h
    split at hc
    · exact Or.inl hc
    · exact Or.inr hc
  | and =>
    rw [Except.ok.injEq] at h
    subst h
    split at hc
    · exact Or.inr hc
    · exact Or.inl hc
  | add => exact mem_closures_add h hc
  | sub => exact hplain (plain_arithmetic (Or.inl h))
  | mul => exact hplain (plain_arithmetic (Or.inr (Or.inl h)))
  | div => exact hplain (plain_arithmetic (Or.inr (Or.inr (Or.inl h))))
  | rem => exact hplain (plain_arithmetic (Or.inr (Or.inr (Or.inr h))))
  | lt | le | gt | ge => exact hplain (plain_compare h)
  | eq | ne | strictEq | strictNe =>
    cases h
    exact hplain rfl

end Value

end LazyConfig
