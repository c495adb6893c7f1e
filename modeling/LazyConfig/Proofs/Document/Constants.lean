-- Constants: expressions that name nothing. Their value is a matter of the expression alone, up to
-- the identities of what is made on the way, and evaluating them asks the store for nothing.
-- Main statement: what a constant evaluates to.
import LazyConfig.Document.Eval
import LazyConfig.Proofs.Source.Bare
import LazyConfig.Proofs.Value.Closures
import LazyConfig.Proofs.Value.Shape

namespace LazyConfig

/-! ## The values of constants -/

mutual

/-- The value of an expression that names nothing and sets no key of an object twice. -/
def Expr.constant? : Expr → Option Value
  | .null _ => some .null
  | .boolean _ b => some (.boolean b)
  | .number _ text => (Value.ofNumber text).toOption
  | .unary _ .neg (.number _ text) => (Value.ofNumber text >>= Value.unary .neg).toOption
  | .string _ s => some (.string s)
  | .blob _ form text => (Value.ofBlob form text).toOption
  | .array _ es => (Expr.constants? es).map (.array default)
  | .object _ ms =>
    (Member.constants? ms).bind fun entries =>
      if (Object.keys entries).Nodup then some (.object default entries) else none
  | _ => none

/-- The values of constants. -/
def Expr.constants? : List Expr → Option (List Value)
  | [] => some []
  | e :: es => e.constant?.bind fun v => (Expr.constants? es).map (v :: ·)

/-- The entries of properties that are constants. -/
def Member.constants? : List Member → Option (List (String × Value))
  | [] => some []
  | .property key e :: ms => e.constant?.bind fun v => (Member.constants? ms).map ((key, v) :: ·)
  | .spread _ :: _ => none

end

mutual

/-- Places do not matter to the value of a constant. -/
theorem Expr.constant?_bare : (e : Expr) → e.bare.constant? = e.constant?
  | .null _ | .boolean _ _ | .number _ _ | .string _ _ | .blob _ _ _ | .identifier _ _
  | .relative _ _ _ | .call _ _ _ | .lambda _ _ _ | .binary _ _ _ _ => rfl
  | .array _ es => by simp only [Expr.bare, Expr.constant?, Expr.constants?_bareAll es]
  | .object _ ms => by simp only [Expr.bare, Expr.constant?, Member.constants?_bareAll ms]
  | .unary _ op e => by cases op <;> cases e <;> rfl

theorem Expr.constants?_bareAll : (es : List Expr) →
    Expr.constants? (Expr.bareAll es) = Expr.constants? es
  | [] => rfl
  | e :: es => by
    simp only [Expr.bareAll, Expr.constants?, Expr.constant?_bare e, Expr.constants?_bareAll es]

theorem Member.constants?_bareAll : (ms : List Member) →
    Member.constants? (Member.bareAll ms) = Member.constants? ms
  | [] => rfl
  | .property key e :: ms => by
    simp only [Member.bareAll, Member.constants?, Expr.constant?_bare e,
      Member.constants?_bareAll ms]
  | .spread e :: ms => by simp only [Member.bareAll, Member.constants?]

end

theorem Expr.constant?_congr {e e' : Expr} (h : e'.bare = e.bare) : e'.constant? = e.constant? := by
  rw [← e'.constant?_bare, h, e.constant?_bare]

/-! ## Evaluations that ask for nothing -/

namespace Evaluation

variable {α β : Type} {P : α → Prop} {Q : β → Prop}

/-- The evaluation asks the store for nothing and gives a result of a kind, however many values the
forcing has made. -/
def Gives (x : Evaluation α) (P : α → Prop) : Prop :=
  ∀ count, ∃ a count', x count = pure (a, count') ∧ P a

theorem Gives.pure {a : α} (h : P a) : Gives (pure a) P := fun count => ⟨a, count, rfl, h⟩

theorem Gives.bind {x : Evaluation α} {f : α → Evaluation β} (hx : Gives x P)
    (hf : ∀ a, P a → Gives (f a) Q) : Gives (x >>= f) Q := by
  intro count
  obtain ⟨a, count', hx, ha⟩ := hx count
  obtain ⟨b, count'', hf, hb⟩ := hf a ha count'
  refine ⟨b, count'', ?_, hb⟩
  show x count >>= _ = _
  rw [hx, pure_bind, ← hf]

theorem gives_fresh (frame : Frame) : Gives (fresh frame) fun _ => True :=
  fun count => ⟨_, count + 1, rfl, trivial⟩

theorem Gives.mono {x : Evaluation α} {P' : α → Prop} (hx : Gives x P) (h : ∀ a, P a → P' a) :
    Gives x P' := by
  intro count
  obtain ⟨a, count', hx, ha⟩ := hx count
  exact ⟨a, count', hx, h a ha⟩

theorem gives_settle (span : Span) {r : Except RuntimeCause α} {a : α} (h : r.toOption = some a) :
    Gives (settle span r) fun found => found = a ∧ r = .ok a := by
  cases r with
  | error cause => cases h
  | ok b =>
    cases h
    exact .pure ⟨rfl, rfl⟩

end Evaluation

/-! ## Evaluating constants -/

/-- A key that is not there is set at the end. -/
theorem Object.insert_new {α : Type} {key : String} {o : Object α} (h : key ∉ keys o) (value : α) :
    insert key value o = o ++ [(key, value)] := by
  induction o with
  | nil => rfl
  | cons e rest ih =>
    rw [keys_cons, List.mem_cons, not_or] at h
    rw [insert, if_neg (Ne.symm h.1), ih h.2, List.cons_append]

section

open Evaluation

variable (host : Host) (left : Nat) (inner : Inner) (frame : Frame)

/-- What has no identity is bare. -/
theorem Value.bare_of_plain {v : Value} (h : v.identity? = none) : v.bare = v := by
  cases v with
  | array | object => cases h
  | _ => rfl

mutual

/-- A constant evaluates to its value, identities aside. -/
theorem gives_eval : (e : Expr) → {v : Value} → e.constant? = some v →
    Gives (eval host left inner frame e) fun found => found.bare = v
  | .null _, v, h => by
    cases h
    exact .pure rfl
  | .boolean _ b, v, h => by
    cases h
    exact .pure rfl
  | .number span text, v, h => by
    refine (gives_settle span h).mono ?_
    rintro _ ⟨rfl, hread⟩
    exact Value.bare_of_plain (Value.plain_ofNumber hread)
  | .string _ text, v, h => by
    cases h
    exact .pure rfl
  | .blob span form text, v, h => by
    refine (gives_settle span h).mono ?_
    rintro _ ⟨rfl, hread⟩
    exact Value.bare_of_plain (Value.plain_ofBlob hread)
  | .array _ es, v, h => by
    obtain ⟨vs, hvs, rfl⟩ := Option.map_eq_some_iff.mp h
    refine (gives_evalList es hvs).bind fun items hitems => ?_
    refine (gives_fresh frame).bind fun id _ => .pure ?_
    rw [Value.bare, hitems]
  | .object _ ms, v, h => by
    obtain ⟨entries, hentries, h⟩ := Option.bind_eq_some_iff.mp h
    split at h
    · next hnodup =>
      cases h
      refine (gives_evalMembers ms [] hentries hnodup).bind fun found hfound => ?_
      refine (gives_fresh frame).bind fun id _ => .pure ?_
      rw [Value.bare, hfound]
      rfl
    · cases h
  | .unary span .neg (.number span' text), v, h => by
    unfold Expr.constant? at h
    cases hread : Value.ofNumber text with
    | error cause =>
      rw [hread] at h
      cases h
    | ok x =>
      rw [hread] at h
      refine (gives_settle span' (by rw [hread]; rfl)).bind fun a ha => ?_
      obtain ⟨rfl, -⟩ := ha
      refine (gives_settle span h).mono ?_
      rintro _ ⟨rfl, hneg⟩
      exact Value.bare_of_plain (Value.plain_unary hneg)
  | .identifier _ _, v, h | .relative _ _ _, v, h | .call _ _ _, v, h | .lambda _ _ _, v, h
  | .binary _ _ _ _, v, h => by cases h

theorem gives_evalList : (es : List Expr) → {vs : List Value} → Expr.constants? es = some vs →
    Gives (evalList host left inner frame es) fun found => Value.bareItems found = vs
  | [], vs, h => by
    cases h
    exact .pure rfl
  | e :: es, vs, h => by
    obtain ⟨v, hv, h⟩ := Option.bind_eq_some_iff.mp h
    obtain ⟨vs, hvs, rfl⟩ := Option.map_eq_some_iff.mp h
    refine (gives_eval e hv).bind fun first hfirst => ?_
    refine (gives_evalList es hvs).bind fun more hmore => .pure ?_
    rw [Value.bareItems, hfirst, hmore]

theorem gives_evalMembers : (ms : List Member) → (before : Object Value) →
    {entries : List (String × Value)} → Member.constants? ms = some entries →
    (Object.keys (before ++ entries)).Nodup →
    Gives (evalMembers host left inner frame before ms) fun found =>
      Value.bareEntries found = Value.bareEntries before ++ entries
  | [], before, entries, h, _ => by
    cases h
    exact .pure (List.append_nil _).symm
  | .property key e :: ms, before, entries, h, hnodup => by
    obtain ⟨v, hv, h⟩ := Option.bind_eq_some_iff.mp h
    obtain ⟨entries, hentries, rfl⟩ := Option.map_eq_some_iff.mp h
    refine (gives_eval e hv).bind fun found hfound => ?_
    have hnew : key ∉ Object.keys before := by
      intro hmem
      rw [Object.keys, List.map_append] at hnodup
      exact (List.nodup_append.mp hnodup).2.2 key hmem key (by simp) rfl
    rw [Object.insert_new hnew]
    refine (gives_evalMembers ms (before ++ [(key, found)]) hentries ?_).mono fun all hall => ?_
    · simpa [Object.keys] using hnodup
    · rw [hall, Value.bareEntries_eq_map, Value.bareEntries_eq_map, List.map_append, ← hfound]
      simp
  | .spread _ :: _, _, _, h, _ => by cases h

end

end

end LazyConfig
