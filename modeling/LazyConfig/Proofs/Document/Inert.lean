-- Expressions that name nothing: literals and operators on them, which call nothing and spread
-- nothing. They come to the same wherever they stand, whatever is bound around them and whatever
-- was made before, but for the identities of compound values and the places of errors.
-- Main statement: what an expression that names nothing comes to when it is evaluated in place.
import LazyConfig.Proofs.Document.Constants
import LazyConfig.Proofs.Document.Origin
import LazyConfig.Proofs.Document.Stages
import LazyConfig.Proofs.Value.Operators

namespace LazyConfig

open Store Evaluation

/-! ## All parts of an expression -/

/-- All parts of the expression are like this. -/
def Expr.Throughout (ok : Expr → Bool) (e : Expr) : Prop :=
  ∀ part : Expr, part.PartOf e → ok part = true

mutual

/-- Whether the expression and all that is inside are like this. -/
def Expr.everywhere (ok : Expr → Bool) : Expr → Bool
  | .array span elements => ok (.array span elements) && Expr.allEverywhere ok elements
  | .object span members => ok (.object span members) && Member.allEverywhere ok members
  | .call span callee args =>
    ok (.call span callee args) && (callee.everywhere ok && Expr.allEverywhere ok args)
  | .lambda span params body => ok (.lambda span params body) && body.everywhere ok
  | .binary span op left right =>
    ok (.binary span op left right) && (left.everywhere ok && right.everywhere ok)
  | .unary span op operand => ok (.unary span op operand) && operand.everywhere ok
  | e => ok e

def Expr.allEverywhere (ok : Expr → Bool) : List Expr → Bool
  | [] => true
  | e :: es => e.everywhere ok && Expr.allEverywhere ok es

def Member.allEverywhere (ok : Expr → Bool) : List Member → Bool
  | [] => true
  | .property _ value :: later => value.everywhere ok && Member.allEverywhere ok later
  | .spread value :: later => value.everywhere ok && Member.allEverywhere ok later

end

variable {ok : Expr → Bool}

theorem Expr.allEverywhere_iff {es : List Expr} :
    Expr.allEverywhere ok es = true ↔ ∀ e ∈ es, e.everywhere ok = true := by
  induction es with
  | nil => simp [Expr.allEverywhere]
  | cons e es ih => simp [Expr.allEverywhere, ih]

theorem Member.allEverywhere_iff {members : List Member} :
    Member.allEverywhere ok members = true ↔
      ∀ e ∈ members.map Member.expr, e.everywhere ok = true := by
  induction members with
  | nil => simp [Member.allEverywhere]
  | cons m later ih => cases m <;> simp [Member.allEverywhere, Member.expr, ih]

theorem Expr.everywhere_iff {e : Expr} :
    e.everywhere ok = true ↔ ok e = true ∧ ∀ inside ∈ e.children, inside.everywhere ok = true := by
  cases e <;> simp [Expr.everywhere, Expr.children, Expr.allEverywhere_iff,
    Member.allEverywhere_iff]

theorem Expr.Throughout.self {e : Expr} (h : e.Throughout ok) : ok e = true := h e .refl

theorem Expr.Throughout.child {e inside : Expr} (h : e.Throughout ok) (hmem : inside ∈ e.children) :
    inside.Throughout ok :=
  fun part hpart => h part (.head hmem hpart)

theorem Expr.throughout_iff_everywhere {e : Expr} : e.Throughout ok ↔ e.everywhere ok = true := by
  constructor
  · intro h
    induction hsize : e.size using Nat.strongRecOn generalizing e with
    | ind size ih =>
      refine everywhere_iff.mpr ⟨h.self, fun inside hmem => ?_⟩
      exact ih inside.size (hsize ▸ Expr.size_lt_of_child hmem) (h.child hmem) rfl
  · intro h part hpart
    induction hpart using Relation.ReflTransGen.head_induction_on with
    | refl => exact (everywhere_iff.mp h).1
    | head hmem _ ih => exact ih ((everywhere_iff.mp h).2 _ hmem)

theorem Member.map_expr_bareAll (members : List Member) :
    (Member.bareAll members).map Member.expr = members.map fun m => m.expr.bare := by
  induction members with
  | nil => rfl
  | cons m later ih => cases m <;> simp [Member.bareAll, Member.expr, ih]

theorem Expr.children_bare (e : Expr) : e.bare.children = e.children.map Expr.bare := by
  cases e <;> simp [Expr.bare, Expr.children, Expr.bareAll_eq_map, Member.map_expr_bareAll]

/-- What places do not matter to, they do not matter to in any part. -/
theorem Expr.throughout_bare (hok : ∀ e, ok e.bare = ok e) (e : Expr) :
    e.bare.Throughout ok ↔ e.Throughout ok := by
  rw [throughout_iff_everywhere, throughout_iff_everywhere]
  induction hsize : e.size using Nat.strongRecOn generalizing e with
  | ind size ih =>
    rw [everywhere_iff, everywhere_iff, hok, children_bare, List.forall_mem_map]
    refine and_congr_right fun _ => forall₂_congr fun inside hmem => ?_
    exact ih inside.size (hsize ▸ Expr.size_lt_of_child hmem) inside rfl

theorem Expr.throughout_congr (hok : ∀ e, ok e.bare = ok e) {e e' : Expr} (h : e'.bare = e.bare) :
    e'.Throughout ok ↔ e.Throughout ok := by
  rw [← e'.throughout_bare hok, h, e.throughout_bare hok]

instance (ok : Expr → Bool) (e : Expr) : Decidable (e.Throughout ok) :=
  decidable_of_iff (e.everywhere ok = true) Expr.throughout_iff_everywhere.symm

/-- Neither a name, a reference, a lambda or a call, nor an object literal with a spread. -/
def Expr.namesNothing : Expr → Bool
  | .identifier _ _ => false
  | .relative _ _ _ => false
  | .call _ _ _ => false
  | .lambda _ _ _ => false
  | .object _ members => members.all fun m => m.key?.isSome
  | _ => true

theorem Expr.namesNothing_bare (e : Expr) : e.bare.namesNothing = e.namesNothing := by
  cases e with
  | object span members =>
    have hkeys := congrArg (fun keys => keys.all Option.isSome) (Member.map_key?_bareAll members)
    simp only [List.all_map] at hkeys
    exact hkeys
  | _ => rfl

/-- What names nothing anywhere. -/
abbrev Expr.Inert (e : Expr) : Prop := e.Throughout Expr.namesNothing

theorem Expr.Inert.property {span : Span} {members : List Member}
    (h : (Expr.object span members).Inert) {m : Member} (hm : m ∈ members) :
    ∃ key e, m = .property key e ∧ e.Inert := by
  have hkey := List.all_eq_true.mp h.self m hm
  cases m with
  | property key e => exact ⟨key, e, rfl, h.child (Member.expr_mem_children hm)⟩
  | spread e => cases hkey

/-! ## What they come to -/

mutual

/-- What an expression that names nothing comes to, identities aside. The other expressions do not
matter. -/
def Expr.verdict : Expr → Except RuntimeCause Value
  | .number _ text => Value.ofNumber text
  | .string _ text => .ok (.string text)
  | .boolean _ b => .ok (.boolean b)
  | .null _ => .ok .null
  | .blob _ form text => Value.ofBlob form text
  | .array _ elements => do return .array default (← Expr.verdicts elements)
  | .object _ members => do return .object default (Object.ofEntries (← Member.verdicts members))
  | .binary _ op left right => do
    let a ← left.verdict
    if op.decidedBy a then return a
    else
      let b ← right.verdict
      Value.combine op a b
  | .unary _ op operand => do
    let a ← operand.verdict
    Value.unary op a
  | .identifier _ _ | .relative _ _ _ | .call _ _ _ | .lambda _ _ _ => .ok .undefined

def Expr.verdicts : List Expr → Except RuntimeCause (List Value)
  | [] => .ok []
  | e :: es => do
    let v ← e.verdict
    return v :: (← Expr.verdicts es)

/-- What the properties among the members come to, with their keys. -/
def Member.verdicts : List Member → Except RuntimeCause (List (String × Value))
  | [] => .ok []
  | .property key value :: later => do
    let v ← value.verdict
    return (key, v) :: (← Member.verdicts later)
  | .spread _ :: later => Member.verdicts later

end

mutual

/-- Places do not matter to it. -/
theorem Expr.verdict_bare : (e : Expr) → e.bare.verdict = e.verdict
  | .number _ _ | .string _ _ | .boolean _ _ | .null _ | .blob _ _ _ | .identifier _ _
  | .relative _ _ _ | .call _ _ _ | .lambda _ _ _ => rfl
  | .array _ elements => by simp only [Expr.bare, Expr.verdict, Expr.verdicts_bareAll elements]
  | .object _ members => by simp only [Expr.bare, Expr.verdict, Member.verdicts_bareAll members]
  | .binary _ op left right => by
    simp only [Expr.bare, Expr.verdict, Expr.verdict_bare left, Expr.verdict_bare right]
  | .unary _ op operand => by simp only [Expr.bare, Expr.verdict, Expr.verdict_bare operand]

theorem Expr.verdicts_bareAll :
    (es : List Expr) → Expr.verdicts (Expr.bareAll es) = Expr.verdicts es
  | [] => rfl
  | e :: es => by
    simp only [Expr.bareAll, Expr.verdicts, Expr.verdict_bare e, Expr.verdicts_bareAll es]

theorem Member.verdicts_bareAll : (members : List Member) →
    Member.verdicts (Member.bareAll members) = Member.verdicts members
  | [] => rfl
  | .property key value :: later => by
    simp only [Member.bareAll, Member.verdicts, Expr.verdict_bare value,
      Member.verdicts_bareAll later]
  | .spread _ :: later => by
    simp only [Member.bareAll, Member.verdicts, Member.verdicts_bareAll later]

end

theorem Expr.verdict_congr {e e' : Expr} (h : e'.bare = e.bare) : e'.verdict = e.verdict := by
  rw [← e'.verdict_bare, h, e.verdict_bare]

/-! ## Evaluations that meet an expectation -/

namespace Evaluation

variable {α β γ δ : Type} {host : Host} {p p' : Stage}

/-- The evaluation comes to what is expected: a good result, or an error with this cause at some
place. Else something that is limited ran out. -/
inductive Meets (host : Host) (x : Evaluation α) (p : Stage) (good : α → Stage → β → Prop) :
    Except RuntimeCause β → Prop
  | stopped {expected e} (hresource : e.isResource = true) (h : Fails host x p e) :
      Meets host x p good expected
  | value {a b p'} (h : Succeeds host x p a p') (hgood : good a p' b) : Meets host x p good (.ok b)
  | error {cause span} (h : Fails host x p (.runtime ⟨cause, some span⟩)) :
      Meets host x p good (.error cause)

variable {x : Evaluation α} {good : α → Stage → β → Prop} {expected : Except RuntimeCause β}

theorem Meets.pure {a : α} {b : β} (h : good a p b) : Meets host (pure a) p good (.ok b) :=
  .value (succeeds_pure.mpr ⟨rfl, rfl⟩) h

theorem Meets.settle_map {span : Span} {r : Except RuntimeCause α} {looks : α → β}
    (h : ∀ a, r = .ok a → good a p (looks a)) :
    Meets host (settle span r) p good (r.map looks) := by
  cases r with
  | ok a => exact .value (succeeds_settle.mpr ⟨rfl, rfl⟩) (h a rfl)
  | error cause => exact .error (fails_settle.mpr ⟨cause, rfl, rfl⟩)

theorem Meets.settle {span : Span} {r : Except RuntimeCause α} {good : α → Stage → α → Prop}
    (h : ∀ a, r = .ok a → good a p a) : Meets host (settle span r) p good r := by
  cases r with
  | ok a => exact .value (succeeds_settle.mpr ⟨rfl, rfl⟩) (h a rfl)
  | error cause => exact .error (fails_settle.mpr ⟨cause, rfl, rfl⟩)

theorem Meets.mono {good' : α → Stage → β → Prop} (h : Meets host x p good expected)
    (hgood : ∀ a p' b, good a p' b → good' a p' b) : Meets host x p good' expected := by
  cases h with
  | stopped hresource h => exact .stopped hresource h
  | value h ha => exact .value h (hgood _ _ _ ha)
  | error h => exact .error h

/-- What is expected may be put in other words. -/
theorem Meets.map {f : β → γ} {good' : α → Stage → γ → Prop} (h : Meets host x p good expected)
    (hgood : ∀ a p' b, good a p' b → good' a p' (f b)) :
    Meets host x p good' (expected >>= fun b => Pure.pure (f b)) := by
  cases h with
  | stopped hresource h => exact .stopped hresource h
  | value h ha => exact .value h (hgood _ _ _ ha)
  | error h => exact .error h

theorem Meets.after {f : α → Evaluation γ} {a : α} {good'' : γ → Stage → δ → Prop}
    {then? : Except RuntimeCause δ} (h : Succeeds host x p a p')
    (hf : Meets host (f a) p' good'' then?) :
    Meets host (x >>= f) p good'' then? := by
  cases hf with
  | stopped hresource h' => exact .stopped hresource ((fails_bind_right h).mpr h')
  | value h' ha' => exact .value (succeeds_bind.mpr ⟨a, p', h, h'⟩) ha'
  | error h' => exact .error ((fails_bind_right h).mpr h')

/-- One after another: what is expected of both is what is expected of the first one, and of the
second one then. -/
theorem Meets.bind {f : α → Evaluation γ} {g : β → Except RuntimeCause δ}
    {good'' : γ → Stage → δ → Prop} (h : Meets host x p good expected)
    (hf : ∀ a p' b, expected = .ok b → good a p' b → Meets host (f a) p' good'' (g b)) :
    Meets host (x >>= f) p good'' (expected >>= g) := by
  cases h with
  | stopped hresource h => exact .stopped hresource (fails_bind.mpr (.inl h))
  | error h => exact .error (fails_bind.mpr (.inl h))
  | @value a b p' h ha =>
    exact .after h (hf a p' b rfl ha)

/-- A compound value is made without fail. -/
theorem Meets.fresh {frame : Frame} {v : Identity → α} {b : β}
    (h : good (v ⟨frame.owner, p.made⟩) ⟨p.store, p.made + 1⟩ b) :
    Meets host (fresh frame >>= fun id => Pure.pure (v id)) p good (.ok b) :=
  .value (succeeds_bind.mpr ⟨_, _, succeeds_fresh.mpr ⟨rfl, rfl⟩, succeeds_pure.mpr ⟨rfl, rfl⟩⟩) h

end Evaluation

/-! ## Evaluation in place -/

/-- The later stage has the same store, and no fewer values were made. -/
structure Stage.Onward (p p' : Stage) : Prop where
  store : p'.store = p.store
  made : p.made ≤ p'.made

theorem Stage.Onward.refl (p : Stage) : p.Onward p := ⟨rfl, Nat.le_refl _⟩

theorem Stage.Onward.trans {p p' p'' : Stage} (h : p.Onward p') (h' : p'.Onward p'') :
    p.Onward p'' :=
  ⟨h'.store.trans h.store, Nat.le_trans h.made h'.made⟩

/-- The value looks like the other one, and was made between the stages, if it is compound. -/
structure Value.MadeAs (p : Stage) (v : Value) (p' : Stage) (w : Value) : Prop where
  onward : p.Onward p'
  bare : v.bare = w
  made : ∀ id, v.identity? = some id → p.made ≤ id.index ∧ id.index < p'.made

theorem Value.madeAs_plain {p p' : Stage} {v : Value} (honward : p.Onward p')
    (h : v.identity? = none) : v.MadeAs p p' v :=
  ⟨honward, Value.bare_of_plain h, fun id hid => by rw [h] at hid; cases hid⟩

/-- A compound value that is made next. -/
theorem Value.madeAs_fresh {p p' : Stage} {owner : String} {v w : Value} (honward : p.Onward p')
    (hid : v.identity? = some ⟨owner, p'.made⟩) (hbare : v.bare = w) :
    v.MadeAs p ⟨p'.store, p'.made + 1⟩ w := by
  refine ⟨⟨honward.store, Nat.le_succ_of_le honward.made⟩, hbare, fun id h => ?_⟩
  rw [hid] at h
  cases h
  exact ⟨honward.made, Nat.lt_succ_self _⟩

theorem Value.bareEntries_insert (key : String) (v : Value) (entries : Object Value) :
    bareEntries (entries.insert key v) = Object.insert key v.bare (bareEntries entries) := by
  induction entries with
  | nil => rfl
  | cons e rest ih =>
    obtain ⟨other, w⟩ := e
    by_cases h : other = key
    · simp [Object.insert, bareEntries, h]
    · simp [Object.insert, bareEntries, h, ih]

section

variable {host : Host} {left : Nat} {inner : Inner} {frame : Frame}

theorem meets_binary {span : Span} {op : BinaryOp} {l r : Expr}
    (hl : ∀ p, Meets host (eval host left inner frame l) p (Value.MadeAs p) l.verdict)
    (hr : ∀ p, Meets host (eval host left inner frame r) p (Value.MadeAs p) r.verdict) (p : Stage) :
    Meets host (eval host left inner frame (.binary span op l r)) p (Value.MadeAs p)
      (Expr.binary span op l r).verdict := by
  rw [eval, Expr.verdict]
  refine (hl p).bind fun a p₁ a' _ ha => ?_
  have hdecided : op.decidedBy a' = op.decidedBy a := by
    rw [← ha.bare]
    cases op <;> simp [BinaryOp.decidedBy, Value.isTruthy_bare]
  rw [hdecided]
  split
  · exact .pure ha
  · refine (hr p₁).bind fun b p₂ b' _ hb => ?_
    -- What the left operand made is older than what the right one made.
    have hapart : ∀ id, a.identity? = some id → b.identity? ≠ some id := by
      intro id hid hid'
      have := (ha.made id hid).2
      have := (hb.made id hid').1
      omega
    rw [← ha.bare, ← hb.bare, ← Value.binary_of_apart hapart ⟨frame.owner, p₂.made⟩ op]
    have hfresh : Succeeds host (fresh frame) p₂ ⟨frame.owner, p₂.made⟩ ⟨p₂.store, p₂.made + 1⟩ :=
      succeeds_fresh.mpr ⟨rfl, rfl⟩
    refine Meets.after hfresh (Meets.settle_map fun v hv => ⟨⟨?_, ?_⟩, rfl, fun id hid => ?_⟩)
    · exact (ha.onward.trans hb.onward).store
    · exact Nat.le_succ_of_le (ha.onward.trans hb.onward).made
    · have hfrom := ha.onward.made
      have hto := hb.onward.made
      rcases Value.identity?_binary hv hid with rfl | hid | hid
      · exact ⟨Nat.le_trans hfrom hto, Nat.lt_succ_self _⟩
      · have := ha.made id hid
        exact ⟨this.1, by show id.index < p₂.made + 1; omega⟩
      · have := hb.made id hid
        exact ⟨by omega, by show id.index < p₂.made + 1; omega⟩

theorem meets_unary {span : Span} {op : UnaryOp} {e : Expr} {p : Stage}
    (h : Meets host (eval host left inner frame e) p (Value.MadeAs p) e.verdict) :
    Meets host (eval host left inner frame (.unary span op e)) p (Value.MadeAs p)
      (Expr.unary span op e).verdict := by
  rw [eval, Expr.verdict]
  refine h.bind fun a p' a' _ ha => ?_
  rw [← ha.bare, Value.unary_bare]
  exact .settle fun v hv => Value.madeAs_plain ha.onward (Value.plain_unary hv)

mutual

/-- What names nothing comes to its verdict, and the store stays as it is. -/
theorem meets_eval : (e : Expr) → e.Inert → (p : Stage) →
    Meets host (eval host left inner frame e) p (Value.MadeAs p) e.verdict
  | .number _ _, _, p => .settle fun _ hv => Value.madeAs_plain (.refl p) (Value.plain_ofNumber hv)
  | .string _ _, _, p | .boolean _ _, _, p | .null _, _, p =>
    .pure (Value.madeAs_plain (.refl p) rfl)
  | .blob _ _ _, _, p => .settle fun _ hv => Value.madeAs_plain (.refl p) (Value.plain_ofBlob hv)
  | .array span elements, h, p => by
    rw [eval, Expr.verdict]
    refine (meets_evalList elements (fun e he => h.child he) p).bind
      fun items p' looks _ hitems => ?_
    exact .fresh (Value.madeAs_fresh hitems.1 rfl (by rw [Value.bare, hitems.2]))
  | .object span members, h, p => by
    rw [eval, Expr.verdict]
    refine (meets_evalMembers members (fun m hm => h.property hm) [] p).bind
      fun entries p' looks _ hentries => ?_
    exact .fresh (Value.madeAs_fresh hentries.1 rfl (by rw [Value.bare, hentries.2]; rfl))
  | .binary span op l r, h, p =>
    meets_binary (fun p => meets_eval l (h.child List.mem_cons_self) p)
      (fun p => meets_eval r (h.child (List.mem_cons_of_mem _ List.mem_cons_self)) p) p
  | .unary span op e, h, p => meets_unary (meets_eval e (h.child List.mem_cons_self) p)
  | .identifier _ _, h, _ | .relative _ _ _, h, _ | .call _ _ _, h, _ | .lambda _ _ _, h, _ =>
    absurd h.self (by simp [Expr.namesNothing])

theorem meets_evalList : (es : List Expr) → (∀ e ∈ es, e.Inert) → (p : Stage) →
    Meets host (evalList host left inner frame es) p
      (fun vs p' ws => p.Onward p' ∧ Value.bareItems vs = ws) (Expr.verdicts es)
  | [], _, p => .pure ⟨.refl p, rfl⟩
  | e :: es, h, p => by
    obtain ⟨he, hes⟩ := List.forall_mem_cons.mp h
    rw [evalList, Expr.verdicts]
    refine (meets_eval e he p).bind fun v p₁ w _ hv => ?_
    refine (meets_evalList es hes p₁).bind fun vs p₂ ws _ hvs => .pure ⟨hv.onward.trans hvs.1, ?_⟩
    rw [Value.bareItems, hv.bare, hvs.2]

theorem meets_evalMembers : (members : List Member) →
    (∀ m ∈ members, ∃ key e, m = .property key e ∧ e.Inert) →
    (entries : Object Value) → (p : Stage) →
    Meets host (evalMembers host left inner frame entries members) p
      (fun found p' more => p.Onward p' ∧
        Value.bareEntries found = Object.extend (Value.bareEntries entries) more)
      (Member.verdicts members)
  | [], _, entries, p => .pure ⟨.refl p, rfl⟩
  | .property key e :: later, h, entries, p => by
    obtain ⟨⟨_, _, heq, he⟩, hlater⟩ := List.forall_mem_cons.mp h
    cases heq
    rw [evalMembers, Member.verdicts]
    refine (meets_eval e he p).bind fun v p₁ w _ hv => ?_
    refine (meets_evalMembers later hlater (entries.insert key v) p₁).map ?_
    rintro found p₂ more ⟨honward, hfound⟩
    refine ⟨hv.onward.trans honward, ?_⟩
    rw [hfound, Value.bareEntries_insert, hv.bare]
    rfl
  | .spread e :: later, h, _, _ => by
    obtain ⟨_, _, heq, _⟩ := h _ List.mem_cons_self
    cases heq

end

end

end LazyConfig
