-- Two stores side by side. A store looks at the names and states of its bindings and at the costs
-- of values, but not at what its bodies and values are. So two stores with bodies that do alike
-- take the same way and stay alike, whatever it is that bodies and values are alike in.
-- Main statement: a request is answered alike by two stores that are alike, and leaves them alike.
import LazyConfig.Proofs.Engine.Execution
import Mathlib.Data.List.Forall2

namespace LazyConfig

/-- Both are results that are related, or both are the same error. -/
inductive EndAlike {ε α β : Type} (R : α → β → Prop) : Except ε α → Except ε β → Prop
  | ok {a : α} {b : β} (h : R a b) : EndAlike R (.ok a) (.ok b)
  | error (e : ε) : EndAlike R (.error e) (.error e)

theorem EndAlike.eq {ε α : Type} {r r' : Except ε α} (h : EndAlike Eq r r') : r = r' := by
  cases h with
  | ok hab => rw [hab]
  | error e => rfl

namespace Store

variable {T C α β α' β' : Type}

/-- What bodies and values are alike in. Values that are alike cost the same. -/
structure Likeness (T : Type) where
  body : T → T → Prop
  value : Value → Value → Prop
  cost_eq {v v' : Value} : value v v' → v.cost = v'.cost

namespace Likeness

variable {L : Likeness T} {s s' : Store T} {name : String}

/-! ## Stores that are alike -/

/-- Bindings are as far, with values that are alike. -/
inductive State (L : Likeness T) : BindingState → BindingState → Prop
  | unevaluated : State L .unevaluated .unevaluated
  | inProgress : State L .inProgress .inProgress
  | evaluated {v v' : Value} (h : L.value v v') : State L (.evaluated v) (.evaluated v')

structure Bindings (L : Likeness T) (b b' : Binding T) : Prop where
  name_eq : b.name = b'.name
  state : L.State b.state b'.state
  body : L.body b.body b'.body

/-- All that can be seen of the two stores is the same, and what cannot be seen is alike. -/
structure Stores (L : Likeness T) (s s' : Store T) : Prop where
  limits_eq : s.limits = s'.limits
  stepsLeft_eq : s.stepsLeft = s'.stepsLeft
  bytesLeft_eq : s.bytesLeft = s'.bytesLeft
  bindings : List.Forall₂ L.Bindings s.bindings s'.bindings
  names_eq : s.names = s'.names
  invoked_eq : s.invoked = s'.invoked

/-- The two requests are answered alike, or lead to bodies that are alike. -/
inductive Replies (L : Likeness T) : Reply T → Reply T → Prop
  | now {r r' : Except EvalError Value} (h : EndAlike L.value r r') : Replies L (.now r) (.now r')
  | run {body body' : T} (h : L.body body body') : Replies L (.run body) (.run body')

/-- Two runs end alike. -/
structure Outcomes (L : Likeness T) (R : α → β → Prop) (out : Except EvalError α × Store T)
    (out' : Except EvalError β × Store T) : Prop where
  result : EndAlike R out.1 out'.1
  stores : L.Stores out.2 out'.2

theorem Stores.refl (hbody : ∀ b, L.body b b) (hvalue : ∀ v, L.value v v) (s : Store T) :
    L.Stores s s := by
  refine ⟨rfl, rfl, rfl, List.forall₂_same.mpr fun b _ => ⟨rfl, ?_, hbody b.body⟩, rfl, rfl⟩
  cases b.state with
  | unevaluated => exact .unevaluated
  | inProgress => exact .inProgress
  | evaluated v => exact .evaluated (hvalue v)

/-! ## Operations of the store -/

theorem Stores.find? (h : L.Stores s s') (name : String) :
    Option.Rel L.Bindings (s.find? name) (s'.find? name) := by
  have hb := h.bindings
  unfold Store.find?
  generalize s.bindings = bs, s'.bindings = bs' at hb
  induction hb with
  | nil => exact .none
  | @cons b b' bs bs' hb _ ih =>
    by_cases hname : b.name = name
    · rw [List.find?_cons_of_pos (by simpa using hname),
        List.find?_cons_of_pos (by simpa [← hb.name_eq] using hname)]
      exact .some hb
    · rw [List.find?_cons_of_neg (by simpa using hname),
        List.find?_cons_of_neg (by simpa [← hb.name_eq] using hname)]
      exact ih

theorem Stores.contains_eq (h : L.Stores s s') : s.contains = s'.contains := by
  funext name
  have hfind := h.find? name
  rw [Store.contains_eq, Store.contains_eq]
  generalize s.find? name = found, s'.find? name = found' at hfind
  cases hfind <;> rfl

theorem Stores.mark (h : L.Stores s s') (name : String) {state state' : BindingState}
    (hstate : L.State state state') : L.Stores (s.mark name state) (s'.mark name state') := by
  refine { h with bindings := ?_ }
  refine List.forall₂_map_left_iff.mpr (List.forall₂_map_right_iff.mpr (h.bindings.imp ?_))
  intro b b' hb
  by_cases hname : b.name = name
  · rw [if_pos hname, if_pos (hb.name_eq ▸ hname)]
    exact ⟨hb.name_eq, hstate, hb.body⟩
  · rw [if_neg hname, if_neg (hb.name_eq ▸ hname)]
    exact hb

theorem Stores.start (h : L.Stores s s') (name : String) :
    L.Stores (s.start name) (s'.start name) :=
  { h.mark name .inProgress with
    stepsLeft_eq := congrArg (· - 1) h.stepsLeft_eq
    invoked_eq := congrArg (name :: ·) h.invoked_eq }

theorem Stores.finish (h : L.Stores s s') (name : String) {r r' : Except EvalError Value}
    (hr : EndAlike L.value r r') : L.Outcomes L.value (s.finish name r) (s'.finish name r') := by
  cases hr with
  | error e => exact ⟨.error e, h.mark name .unevaluated⟩
  | @ok v v' hv =>
    have hcost := L.cost_eq hv
    have hbytes := h.bytesLeft_eq
    by_cases hspace : s.bytesLeft < v.cost
    · have hspace' : s'.bytesLeft < v'.cost := hbytes ▸ hcost ▸ hspace
      simp only [Store.finish, hbytes, hcost, if_pos hspace']
      exact ⟨.error _, h.mark name .unevaluated⟩
    · have hspace' : ¬ s'.bytesLeft < v'.cost := hbytes ▸ hcost ▸ hspace
      simp only [Store.finish, if_neg hspace, if_neg hspace']
      exact ⟨.ok hv, { h.mark name (.evaluated hv) with
        bytesLeft_eq := by show s.bytesLeft - v.cost = s'.bytesLeft - v'.cost; rw [hbytes, hcost] }⟩

theorem Stores.reply (h : L.Stores s s') (name : String) :
    L.Replies (s.reply name) (s'.reply name) := by
  have hfind := h.find? name
  unfold Store.reply
  rw [h.limits_eq, h.stepsLeft_eq]
  generalize s.find? name = found, s'.find? name = found' at hfind
  cases hfind with
  | none => exact .now (.error _)
  | @some b b' hb =>
    obtain ⟨_, hstate, hbody⟩ := hb
    dsimp only
    generalize b.state = state, b'.state = state' at hstate
    cases hstate with
    | evaluated hv => exact .now (.ok hv)
    | inProgress => exact .now (.error _)
    | unevaluated =>
      by_cases hsteps : s'.stepsLeft = 0
      · simp only [if_pos hsteps]
        exact .now (.error _)
      · simp only [if_neg hsteps]
        exact .run hbody

/-! ## Computations -/

/-- On stores that are alike the two computations end alike. -/
def Parallel (L : Likeness T) (behaviour : Behaviour T C) (R : α → β → Prop)
    (x : ExceptT EvalError (Program T C) α) (y : ExceptT EvalError (Program T C) β) : Prop :=
  ∀ s s' : Store T, L.Stores s s' →
    L.Outcomes R (s.exec behaviour x.run) (s'.exec behaviour y.run)

variable {behaviour : Behaviour T C} {R : α → β → Prop} {R' : α' → β' → Prop}
  {x : ExceptT EvalError (Program T C) α} {y : ExceptT EvalError (Program T C) β}

theorem Parallel.pure {a : α} {b : β} (h : R a b) :
    L.Parallel behaviour R (Pure.pure a) (Pure.pure b) := fun _ _ hs => ⟨.ok h, hs⟩

theorem Parallel.throw (e : EvalError) :
    L.Parallel behaviour R (MonadExcept.throw e) (MonadExcept.throw e) :=
  fun _ _ hs => ⟨.error e, hs⟩

theorem Parallel.bind {f : α → ExceptT EvalError (Program T C) α'}
    {g : β → ExceptT EvalError (Program T C) β'} (hx : L.Parallel behaviour R x y)
    (hf : ∀ a b, R a b → L.Parallel behaviour R' (f a) (g b)) :
    L.Parallel behaviour R' (x >>= f) (y >>= g) := by
  intro s s' hs
  have hout := hx s s' hs
  rw [exec_run_bind, exec_run_bind]
  generalize s.exec behaviour x.run = out, s'.exec behaviour y.run = out' at hout
  obtain ⟨r, t⟩ := out
  obtain ⟨r', t'⟩ := out'
  obtain ⟨hr, ht⟩ := hout
  cases hr with
  | ok hab => exact hf _ _ hab t t' ht
  | error e => exact ⟨.error e, ht⟩

theorem Parallel.adapt (hx : L.Parallel behaviour R x y) (place : EvalError → EvalError) :
    L.Parallel behaviour R (ExceptT.adapt place x) (ExceptT.adapt place y) := by
  intro s s' hs
  obtain ⟨hr, ht⟩ := hx s s' hs
  rw [exec_adapt, exec_adapt]
  refine ⟨?_, ht⟩
  generalize (s.exec behaviour x.run).1 = r, (s'.exec behaviour y.run).1 = r' at hr
  cases hr with
  | ok h => exact .ok h
  | error e => exact .error (place e)

/-! ## Requests -/

/-- Two stores that are alike answer a request alike, and are alike afterwards, if bodies that are
alike do. -/
theorem Stores.value {context : C}
    (hbody : ∀ body body', L.body body body' →
      L.Parallel behaviour L.value (behaviour body context) (behaviour body' context))
    (h : L.Stores s s') (name : String) :
    L.Outcomes L.value (s.value behaviour context name) (s'.value behaviour context name) := by
  have hreply := h.reply name
  generalize hr : s.reply name = reply, hr' : s'.reply name = reply' at hreply
  cases hreply with
  | now hans =>
    rw [value_of_now behaviour hr, value_of_now behaviour hr']
    exact ⟨hans, h⟩
  | run hrun =>
    rw [value_of_run behaviour hr, value_of_run behaviour hr']
    obtain ⟨hend, hstores⟩ := hbody _ _ hrun _ _ (h.start name)
    exact hstores.finish name hend

end Likeness

end Store

end LazyConfig
