-- How tall expressions are. What is evaluated was written in some document: the body of a binding,
-- and the body of each lambda in a value that is kept, are no taller than the tallest document that
-- is loaded.
-- Main statement: whatever evaluation results in has no taller bodies of lambdas.
import LazyConfig.Proofs.Document.Lasting

namespace LazyConfig

open Store

/-! ## Trees -/

mutual

/-- The weight of a tree, when the weights of trees next to one another are joined. -/
def Expr.weight (join : Nat → Nat → Nat) : Expr → Nat
  | .array _ elements => Expr.weightAll join elements + 1
  | .object _ members => Member.weightAll join members + 1
  | .call _ callee args => join (callee.weight join) (Expr.weightAll join args) + 1
  | .lambda _ _ body => body.weight join + 1
  | .binary _ _ left right => join (left.weight join) (right.weight join) + 1
  | .unary _ _ operand => operand.weight join + 1
  | _ => 1

def Expr.weightAll (join : Nat → Nat → Nat) : List Expr → Nat
  | [] => 0
  | e :: es => join (e.weight join) (Expr.weightAll join es)

def Member.weightAll (join : Nat → Nat → Nat) : List Member → Nat
  | [] => 0
  | .property _ value :: later => join (value.weight join) (Member.weightAll join later)
  | .spread value :: later => join (value.weight join) (Member.weightAll join later)

end

/-- The number of nodes of the tree. -/
def Expr.size (e : Expr) : Nat := e.weight (· + ·)

/-- The number of nodes on the longest way down the tree. -/
def Expr.height (e : Expr) : Nat := e.weight max

/-- What is joined weighs at least as much as each part. -/
def Outweighs (join : Nat → Nat → Nat) : Prop := ∀ a b, a ≤ join a b ∧ b ≤ join a b

section

variable {join : Nat → Nat → Nat} (hjoin : Outweighs join)

include hjoin

theorem Expr.weight_le_weightAll {e : Expr} {es : List Expr} (h : e ∈ es) :
    e.weight join ≤ Expr.weightAll join es := by
  induction es with
  | nil => cases h
  | cons first later ih =>
    obtain ⟨hfirst, hlater⟩ := hjoin (first.weight join) (Expr.weightAll join later)
    rcases List.mem_cons.mp h with rfl | h
    · exact hfirst
    · exact Nat.le_trans (ih h) hlater

theorem Member.weight_le_weightAll {m : Member} {members : List Member} (h : m ∈ members) :
    m.expr.weight join ≤ Member.weightAll join members := by
  induction members with
  | nil => cases h
  | cons first later ih =>
    have hcons : Member.weightAll join (first :: later) =
        join (first.expr.weight join) (Member.weightAll join later) := by
      cases first <;> rfl
    obtain ⟨hfirst, hlater⟩ := hjoin (first.expr.weight join) (Member.weightAll join later)
    rw [hcons]
    rcases List.mem_cons.mp h with rfl | h
    · exact hfirst
    · exact Nat.le_trans (ih h) hlater

/-- What is inside an expression weighs less. -/
theorem Expr.weight_lt_of_child {e inside : Expr} (h : inside ∈ e.children) :
    inside.weight join < e.weight join := by
  cases e with
  | array span elements => exact Nat.lt_succ_of_le (weight_le_weightAll hjoin h)
  | object span members =>
    obtain ⟨m, hm, rfl⟩ := List.mem_map.mp h
    exact Nat.lt_succ_of_le (Member.weight_le_weightAll hjoin hm)
  | call span callee args =>
    obtain ⟨hcallee, hargs⟩ := hjoin (callee.weight join) (Expr.weightAll join args)
    rcases List.mem_cons.mp h with rfl | h
    · exact Nat.lt_succ_of_le hcallee
    · exact Nat.lt_succ_of_le (Nat.le_trans (weight_le_weightAll hjoin h) hargs)
  | lambda span params body =>
    rw [List.mem_singleton.mp h]
    exact Nat.lt_succ_self _
  | binary span op left right =>
    obtain ⟨hleft, hright⟩ := hjoin (left.weight join) (right.weight join)
    rcases List.mem_cons.mp h with rfl | h
    · exact Nat.lt_succ_of_le hleft
    · rw [List.mem_singleton.mp h]
      exact Nat.lt_succ_of_le hright
  | unary span op operand =>
    rw [List.mem_singleton.mp h]
    exact Nat.lt_succ_self _
  | _ => cases h

omit hjoin in
theorem Expr.weight_pos (join : Nat → Nat → Nat) (e : Expr) : 0 < e.weight join := by
  cases e <;> exact Nat.succ_pos _

end

theorem outweighs_add : Outweighs (· + ·) := fun _ _ => ⟨Nat.le_add_right _ _, Nat.le_add_left _ _⟩

theorem outweighs_max : Outweighs max := fun _ _ => ⟨Nat.le_max_left _ _, Nat.le_max_right _ _⟩

theorem Expr.size_lt_of_child {e inside : Expr} (h : inside ∈ e.children) : inside.size < e.size :=
  weight_lt_of_child outweighs_add h

theorem Expr.height_lt_of_child {e inside : Expr} (h : inside ∈ e.children) :
    inside.height < e.height := weight_lt_of_child outweighs_max h

/-- The height of what a binding evaluates, as a tree. -/
def Task.height : Task → Nat
  | .expression e => e.height
  | .members ms => Member.weightAll max ms + 1

/-- The expressions that a binding evaluates itself. -/
def Task.expressions : Task → List Expr
  | .expression e => [e]
  | .members ms => ms.map Member.expr

theorem Task.height_le_of_mem {task : Task} {e : Expr} (h : e ∈ task.expressions) :
    e.height ≤ task.height := by
  cases task with
  | expression root => exact Nat.le_of_eq (congrArg _ (List.mem_singleton.mp h))
  | members ms =>
    obtain ⟨m, hm, rfl⟩ := List.mem_map.mp h
    exact Nat.le_succ_of_le (Member.weight_le_weightAll outweighs_max hm)

/-! ## Documents -/

/-- The height of the tallest of the bindings. -/
def tallest (bindings : List Suspension) : Nat := (bindings.map (·.task.height)).foldr max 0

theorem tallest_cons (b : Suspension) (later : List Suspension) :
    tallest (b :: later) = max b.task.height (tallest later) := rfl

theorem tallest_append (bindings more : List Suspension) :
    tallest (bindings ++ more) = max (tallest bindings) (tallest more) := by
  induction bindings with
  | nil => simp [tallest]
  | cons b later ih => rw [List.cons_append, tallest_cons, tallest_cons, ih, Nat.max_assoc]

theorem height_le_tallest {b : Suspension} {bindings : List Suspension} (h : b ∈ bindings) :
    b.task.height ≤ tallest bindings := by
  induction bindings with
  | nil => cases h
  | cons first later ih =>
    rw [tallest_cons]
    rcases List.mem_cons.mp h with rfl | h
    · exact Nat.le_max_left _ _
    · exact Nat.le_trans (ih h) (Nat.le_max_right _ _)

mutual

/-- The bindings of an expression are no taller than the expression, and the first one is as
tall. -/
theorem tallest_bindingsAt : (e : Expr) → (scopes : List String) → (path : String) →
    tallest (bindingsAt scopes path e) = e.height
  | .object span members, scopes, path => by
    have hmembers := tallest_memberBindings members (path :: scopes) path
    have hheight : (Task.members members).height = Expr.height (.object span members) := rfl
    rw [bindingsAt, tallest_cons, hheight]
    apply Nat.max_eq_left
    exact Nat.le_trans hmembers (Nat.le_succ _)
  | .number _ _, _, _ | .string _ _, _, _ | .boolean _ _, _, _ | .null _, _, _ | .blob _ _ _, _, _
  | .identifier _ _, _, _ | .relative _ _ _, _, _ | .array _ _, _, _ | .call _ _ _, _, _
  | .lambda _ _ _, _, _ | .binary _ _ _ _, _, _ | .unary _ _ _, _, _ => by
    simp [bindingsAt, tallest, Task.height]

theorem tallest_memberBindings : (members : List Member) → (scopes : List String) →
    (path : String) → tallest (memberBindings scopes path members) ≤ Member.weightAll max members
  | [], _, _ => Nat.le_refl _
  | .property key value :: later, scopes, path => by
    have hlater := tallest_memberBindings later scopes path
    have hvalue := tallest_bindingsAt value scopes (childPath path key)
    rw [memberBindings]
    split
    · exact Nat.le_trans hlater (Nat.le_max_right _ _)
    · rw [tallest_append, hvalue]
      exact Nat.max_le.mpr ⟨Nat.le_max_left _ _, Nat.le_trans hlater (Nat.le_max_right _ _)⟩
  | .spread value :: later, scopes, path =>
    Nat.le_trans (tallest_memberBindings later scopes path) (Nat.le_max_right _ _)

end

/-! ## Stores -/

/-- The height of the tallest document that is loaded. -/
def Store.height (s : Store Suspension) : Nat := tallest (s.bindings.map (·.body))

section

variable {s s' : Store Suspension}

/-- A store with a document more is as tall as before, or as the document. -/
theorem height_addAll_documentBindings (s : Store Suspension) (name : String) (root : Expr) :
    (s.addAll (documentBindings name root)).height = max s.height root.height := by
  have hroot : tallest (documentBindings name root) = root.height := tallest_bindingsAt root [] name
  have hbodies : ((documentBindings name root).map fun b =>
      (⟨b.path, .unevaluated, b⟩ : Binding Suspension)).map (·.body) =
        documentBindings name root := by
    rw [List.map_map]
    exact List.map_id _
  rw [Store.height, addAll, List.map_append, hbodies, tallest_append, hroot, Store.height]

theorem height_eq_bodies (s : Store Suspension) : s.height = tallest (s.bodies.map (·.2)) := by
  rw [Store.height, Store.bodies, List.map_map]
  rfl

/-- Nothing takes away documents. -/
theorem Store.Precedes.height_le (h : s.Precedes s') : s.height ≤ s'.height := by
  obtain ⟨added, hadded⟩ := h.bodies
  rw [height_eq_bodies, height_eq_bodies, hadded, List.map_append, tallest_append]
  exact Nat.le_max_left _ _

theorem height_start (s : Store Suspension) (name : String) : (s.start name).height = s.height := by
  rw [height_eq_bodies, bodies_start, height_eq_bodies]

theorem height_finish (s : Store Suspension) (name : String) (r : Except EvalError Value) :
    (s.finish name r).2.height = s.height := by
  rw [height_eq_bodies, bodies_finish, height_eq_bodies]

theorem height_le_of_body? {name : String} {b : Suspension} (h : s.body? name = some b) :
    b.task.height ≤ s.height := by
  obtain ⟨found, hfind, rfl⟩ := Option.map_eq_some_iff.mp h
  have hbody : found.body ∈ s.bindings.map (·.body) :=
    List.mem_map_of_mem (List.mem_of_find?_eq_some hfind)
  exact height_le_tallest hbody

theorem height_exec_le {α : Type} (behaviour : Behaviour Suspension Nat)
    (p : Program Suspension Nat α) (s : Store Suspension) :
    s.height ≤ (s.exec behaviour p).2.height := (precedes_exec behaviour p s).height_le

end

/-! ## Evaluation -/

/-- Expressions no taller than some document that is loaded, and stores that only keep lambdas with
such bodies. As time goes by documents are added and steps taken. -/
def stature (host : Host) : Footing where
  host := host
  fits s := ∀ n v, s.state? n = some (.evaluated v) → ∀ c ∈ v.closures, c.body.height ≤ s.height
  later s s' := s.height ≤ s'.height ∧ s'.stepsLeft ≤ s.stepsLeft
  place s _ _ e := e.height ≤ s.height
  known _ _ := True
  place_child he hinside := Nat.le_trans (Nat.le_of_lt (Expr.height_lt_of_child hinside)) he
  place_later hlater he := Nat.le_trans he hlater.1
  known_later _ h := h

/-- With `left` levels the computation leaves a store that fits, and a result that is good. -/
def Measured (host : Host) (left : Nat) : Judgement := fun _ good s x =>
  let out := s.exec (behaviour host) (x left).run
  (stature host).fits out.2 ∧ ∀ a, out.1 = .ok a → good out.2 a

section

variable {host : Host} {left : Nat} {s s' : Store Suspension}

theorem later_rfl (s : Store Suspension) : (stature host).later s s :=
  ⟨Nat.le_refl _, Nat.le_refl _⟩

theorem later_trans {s s' s'' : Store Suspension} (h : (stature host).later s s')
    (h' : (stature host).later s' s'') : (stature host).later s s'' :=
  ⟨Nat.le_trans h.1 h'.1, Nat.le_trans h'.2 h.2⟩

/-- The body of a binding is written in a document that is loaded. -/
theorem opens_of_body? {path : String} {b : Suspension} (hb : s.body? path = some b) :
    (stature host).Opens s b := by
  have hheight : ∀ e ∈ b.task.expressions, e.height ≤ s.height := fun e he =>
    Nat.le_trans (Task.height_le_of_mem he) (height_le_of_body? hb)
  unfold Footing.Opens
  cases htask : b.task with
  | expression e =>
    rw [htask] at hheight
    exact hheight e List.mem_cons_self
  | members members =>
    rw [htask] at hheight
    exact ⟨fun _ he => hheight _ (List.mem_map_of_mem he), fun _ _ _ => trivial⟩

/-- It lasts without anything that would have to be kept of the bodies. -/
theorem stature_lasts (host : Host) : (stature host).Lasts fun _ => True where
  fits_iff := ⟨fun h => ⟨trivial, h⟩, And.right⟩
  later h := ⟨h.height_le, h.steps⟩
  same _ _ := trivial
  file _ _ _ _ := trivial
  opens _ hb := opens_of_body? hb
  known := trivial

theorem later_exec (host : Host) {α : Type} (x : Attempt α) (s : Store Suspension) :
    (stature host).later s (s.exec (behaviour host) x.run).2 :=
  (stature_lasts host).later (precedes_exec _ _ s)

theorem fits_define (hs : (stature host).fits s) (name : String) (b : Suspension) :
    (stature host).fits (s.define name b).2 :=
  (stature_lasts host).fits_later hs (precedes_define s name b) trivial fun _ _ hv =>
    Or.inl (state?_of_define hv)

theorem fits_empty (host : Host) (limits : Limits) : (stature host).fits (.empty limits) := by
  intro n v hv
  contradiction

/-- Evaluation is measured, at every level. -/
theorem measured_at (host : Host) (left : Nat) : (stature host).CarriesAt (Measured host left) :=
  (stature_lasts host).ends left

end

end LazyConfig
