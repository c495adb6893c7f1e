-- Operators take values for what they look like. Only the two equalities ask for more: whether
-- compound values are one and the same, which values that were made apart never are.
-- Main statements: what the operators give for values that were made apart, identities aside.
import LazyConfig.Proofs.Value.Closures
import LazyConfig.Proofs.Value.Shape

namespace LazyConfig.Value

/-! ## What operators see -/

mutual

theorem bare_bare : (v : Value) → v.bare.bare = v.bare
  | undefined | null | boolean _ | number _ | bigint _ | string _ | blob _ | function _ _ => rfl
  | array _ items => by rw [bare, bare, bareItems_bareItems items]
  | object _ entries => by rw [bare, bare, bareEntries_bareEntries entries]

theorem bareItems_bareItems : (vs : List Value) → bareItems (bareItems vs) = bareItems vs
  | [] => rfl
  | v :: vs => by rw [bareItems, bareItems, bare_bare v, bareItems_bareItems vs]

theorem bareEntries_bareEntries : (entries : List (String × Value)) →
    bareEntries (bareEntries entries) = bareEntries entries
  | [] => rfl
  | (key, v) :: rest => by rw [bareEntries, bareEntries, bare_bare v, bareEntries_bareEntries rest]

end

theorem isTruthy_bare (v : Value) : v.bare.isTruthy = v.isTruthy := by
  cases v <;> rfl

theorem isNone_identity?_bare (v : Value) : v.bare.identity?.isNone = v.identity?.isNone := by
  cases v <;> rfl

theorem unary_bare (op : UnaryOp) (v : Value) : unary op v.bare = unary op v := by
  cases op <;> cases v <;> rfl

theorem compare_bare (op : BinaryOp) (holds : Ordering → Bool) (a b : Value) :
    compare op holds a.bare b.bare = compare op holds a b := by
  cases a <;> cases b <;> rfl

theorem sub_bare (a b : Value) : sub a.bare b.bare = sub a b := by
  cases a <;> cases b <;> rfl

theorem mul_bare (a b : Value) : mul a.bare b.bare = mul a b := by
  cases a <;> cases b <;> rfl

theorem div_bare (a b : Value) : div a.bare b.bare = div a b := by
  cases a <;> cases b <;> rfl

theorem rem_bare (a b : Value) : rem a.bare b.bare = rem a b := by
  cases a <;> cases b <;> rfl

/-- A joined array looks the same whichever value it is. -/
theorem add_bare (id : Identity) (a b : Value) :
    (add id a b).map bare = (add default a.bare b.bare).map bare := by
  cases a with
  | array _ xs =>
    cases b with
    | array _ ys =>
      simp only [add, bare, Except.map, bareItems_eq_map, List.map_append, List.map_map]
      simp [Function.comp_def, bare_bare]
    | _ => rfl
  | _ => cases b <;> rfl

/-! ## Values that were made apart -/

variable {a b : Value}

theorem strictEquals_of_compound {id : Identity} (h : a.identity? = some id) :
    strictEquals a b = decide (b.identity? = some id) := by
  cases a with
  | array | object | function =>
    cases h
    cases b <;> simp [strictEquals, identity?, eq_comm]
  | _ => cases h

/-- Compound values with identities of their own are not equal, and others are if they look
equal. -/
theorem strictEquals_of_apart (hapart : ∀ id, a.identity? = some id → b.identity? ≠ some id) :
    strictEquals a b = (a.identity?.isNone && strictEquals a.bare b.bare) := by
  cases hid : a.identity? with
  | some id =>
    rw [strictEquals_of_compound hid, decide_eq_false (hapart id hid), Option.isNone_some,
      Bool.false_and]
  | none =>
    rw [Option.isNone_none, Bool.true_and]
    cases a with
    | array | object | function => cases hid
    | _ => cases b <;> rfl

/-- What a binary operator gives for values that look like this and were made apart. -/
def combine (op : BinaryOp) (a b : Value) : Except RuntimeCause Value :=
  match op with
  | .eq | .strictEq => .ok (.boolean (a.identity?.isNone && strictEquals a b))
  | .ne | .strictNe => .ok (.boolean !(a.identity?.isNone && strictEquals a b))
  | _ => (binary default op a b).map bare

theorem binary_of_apart (hapart : ∀ id, a.identity? = some id → b.identity? ≠ some id)
    (id : Identity) (op : BinaryOp) : (binary id op a b).map bare = combine op a.bare b.bare := by
  cases op with
  | eq | strictEq | ne | strictNe =>
    simp only [binary, combine, strictEquals_of_apart hapart, isNone_identity?_bare]
    rfl
  | or | and =>
    simp only [binary, combine, isTruthy_bare]
    split <;> simp only [Except.map, bare_bare]
  | lt | le | gt | ge => simp only [binary, combine, compare_bare]
  | add => exact add_bare id a b
  | sub => simp only [binary, combine, sub_bare]
  | mul => simp only [binary, combine, mul_bare]
  | div => simp only [binary, combine, div_bare]
  | rem => simp only [binary, combine, rem_bare]

/-- What an operator gives is new, or one of the operands, if it is compound. -/
theorem identity?_binary {fresh id : Identity} {op : BinaryOp} {v : Value}
    (h : binary fresh op a b = .ok v) (hid : v.identity? = some id) :
    id = fresh ∨ a.identity? = some id ∨ b.identity? = some id := by
  have hplain : v.identity? = none → id = fresh ∨ a.identity? = some id ∨
      b.identity? = some id := by
    intro hnone
    rw [hnone] at hid
    cases hid
  cases op with
  | eq | strictEq | ne | strictNe =>
    cases h
    exact hplain rfl
  | or =>
    simp only [binary, Except.ok.injEq] at h
    split at h
    · exact .inr (.inl (h ▸ hid))
    · exact .inr (.inr (h ▸ hid))
  | and =>
    simp only [binary, Except.ok.injEq] at h
    split at h
    · exact .inr (.inr (h ▸ hid))
    · exact .inr (.inl (h ▸ hid))
  | lt | le | gt | ge => exact hplain (plain_compare h)
  | sub => exact hplain (plain_arithmetic (.inl h))
  | mul => exact hplain (plain_arithmetic (.inr (.inl h)))
  | div => exact hplain (plain_arithmetic (.inr (.inr (.inl h))))
  | rem => exact hplain (plain_arithmetic (.inr (.inr (.inr h))))
  | add =>
    simp only [binary, add] at h
    split at h
    case h_5 =>
      cases h
      exact .inl (Option.some.inj hid).symm
    case h_2 => exact hplain (plain_exact h)
    case h_6 => cases h
    all_goals
      cases h
      exact hplain rfl

end LazyConfig.Value
