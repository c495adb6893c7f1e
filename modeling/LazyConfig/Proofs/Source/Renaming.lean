-- Renaming a parameter of a lambda: in its list of parameters, and at the identifiers of its body
-- that it binds. Two expressions are the same up to the names of parameters if each identifier is
-- bound at the same place in both, or is free in both and has the same name.
-- Main statement: with a new name that is neither an identifier nor a parameter of the document,
-- the renamed document is the same up to the names of parameters.
import LazyConfig.Source.Expr
import Mathlib.Data.List.Basic

namespace LazyConfig

/-! ## Renaming -/

mutual

/-- The expression with every identifier `x` that no lambda in it binds turned into `y`. -/
def Expr.rename (x y : String) : Expr → Expr
  | .identifier span name => .identifier span (if name = x then y else name)
  | .array span elements => .array span (Expr.renameAll x y elements)
  | .object span members => .object span (Member.renameAll x y members)
  | .call span callee args => .call span (callee.rename x y) (Expr.renameAll x y args)
  | .lambda span params body =>
    .lambda span params (if x ∈ params then body else body.rename x y)
  | .binary span op left right => .binary span op (left.rename x y) (right.rename x y)
  | .unary span op operand => .unary span op (operand.rename x y)
  | e => e

def Expr.renameAll (x y : String) : List Expr → List Expr
  | [] => []
  | e :: es => e.rename x y :: Expr.renameAll x y es

def Member.renameAll (x y : String) : List Member → List Member
  | [] => []
  | .property key value :: later => .property key (value.rename x y) :: Member.renameAll x y later
  | .spread value :: later => .spread (value.rename x y) :: Member.renameAll x y later

end

/-- The lambda with its parameter `x` called `y`. Anything else is left as it is. -/
def Expr.renameParameter (x y : String) : Expr → Expr
  | .lambda span params body =>
    if x ∈ params then
      .lambda span (params.map fun p => if p = x then y else p) (body.rename x y)
    else .lambda span params body
  | e => e

/-- The member with its expression changed. -/
def Member.modify (f : Expr → Expr) : Member → Member
  | .property key value => .property key (f value)
  | .spread value => .spread (f value)

/-- The expression with the one of that number changed among those directly inside of it. -/
def Expr.modifyChild (f : Expr → Expr) : Nat → Expr → Expr
  | i, .array span elements => .array span (elements.modify i f)
  | i, .object span members => .object span (members.modify i (Member.modify f))
  | 0, .call span callee args => .call span (f callee) args
  | i + 1, .call span callee args => .call span callee (args.modify i f)
  | 0, .lambda span params body => .lambda span params (f body)
  | 0, .binary span op left right => .binary span op (f left) right
  | 1, .binary span op left right => .binary span op left (f right)
  | 0, .unary span op operand => .unary span op (f operand)
  | _, e => e

/-- The document with the parameter `x` of the lambda at a position called `y`. A position tells by
numbers into which expression to go, from the root on. -/
def Expr.renameAt (x y : String) : List Nat → Expr → Expr
  | [] => Expr.renameParameter x y
  | i :: position => Expr.modifyChild (Expr.renameAt x y position) i

mutual

/-- The names of an expression that may be bound by lambdas: its identifiers and parameters. -/
def Expr.names : Expr → List String
  | .identifier _ name => [name]
  | .array _ elements => Expr.namesAll elements
  | .object _ members => Member.namesAll members
  | .call _ callee args => callee.names ++ Expr.namesAll args
  | .lambda _ params body => params ++ body.names
  | .binary _ _ left right => left.names ++ right.names
  | .unary _ _ operand => operand.names
  | _ => []

def Expr.namesAll : List Expr → List String
  | [] => []
  | e :: es => e.names ++ Expr.namesAll es

def Member.namesAll : List Member → List String
  | [] => []
  | .property _ value :: later => value.names ++ Member.namesAll later
  | .spread value :: later => value.names ++ Member.namesAll later

end

/-! ## The same up to the names of parameters -/

/-- Pairs of parameters at the same places of two expressions, the innermost first. -/
abbrev Pairing := List (String × String)

/-- Two names are bound by the same pair, or none of them is bound and they are the same. -/
def Pairing.Binds : Pairing → String → String → Prop
  | [], a, b => a = b
  | (x, y) :: outer, a, b => a = x ∧ b = y ∨ a ≠ x ∧ b ≠ y ∧ Pairing.Binds outer a b

mutual

/-- Inside of lambdas with the paired parameters, two expressions are the same up to the names of
parameters. -/
inductive Expr.Alpha : Pairing → Expr → Expr → Prop
  | number {Γ span text} : Expr.Alpha Γ (.number span text) (.number span text)
  | string {Γ span text} : Expr.Alpha Γ (.string span text) (.string span text)
  | boolean {Γ span b} : Expr.Alpha Γ (.boolean span b) (.boolean span b)
  | null {Γ span} : Expr.Alpha Γ (.null span) (.null span)
  | blob {Γ span form text} : Expr.Alpha Γ (.blob span form text) (.blob span form text)
  | identifier {Γ span a b} (h : Pairing.Binds Γ a b) :
      Expr.Alpha Γ (.identifier span a) (.identifier span b)
  | relative {Γ span level name} :
      Expr.Alpha Γ (.relative span level name) (.relative span level name)
  | array {Γ span es es'} (h : Expr.AlphaAll Γ es es') :
      Expr.Alpha Γ (.array span es) (.array span es')
  | object {Γ span ms ms'} (h : Member.AlphaAll Γ ms ms') :
      Expr.Alpha Γ (.object span ms) (.object span ms')
  | call {Γ span callee callee' args args'} (hcallee : Expr.Alpha Γ callee callee')
      (hargs : Expr.AlphaAll Γ args args') :
      Expr.Alpha Γ (.call span callee args) (.call span callee' args')
  | lambda {Γ span params params' body body'} (hparams : params.length = params'.length)
      (hbody : Expr.Alpha (params.zip params' ++ Γ) body body') :
      Expr.Alpha Γ (.lambda span params body) (.lambda span params' body')
  | binary {Γ span op l l' r r'} (hl : Expr.Alpha Γ l l') (hr : Expr.Alpha Γ r r') :
      Expr.Alpha Γ (.binary span op l r) (.binary span op l' r')
  | unary {Γ span op e e'} (h : Expr.Alpha Γ e e') :
      Expr.Alpha Γ (.unary span op e) (.unary span op e')

inductive Expr.AlphaAll : Pairing → List Expr → List Expr → Prop
  | nil {Γ} : Expr.AlphaAll Γ [] []
  | cons {Γ e e' es es'} (h : Expr.Alpha Γ e e') (hes : Expr.AlphaAll Γ es es') :
      Expr.AlphaAll Γ (e :: es) (e' :: es')

inductive Member.AlphaAll : Pairing → List Member → List Member → Prop
  | nil {Γ} : Member.AlphaAll Γ [] []
  | property {Γ key e e' ms ms'} (h : Expr.Alpha Γ e e') (hms : Member.AlphaAll Γ ms ms') :
      Member.AlphaAll Γ (.property key e :: ms) (.property key e' :: ms')
  | spread {Γ e e' ms ms'} (h : Expr.Alpha Γ e e') (hms : Member.AlphaAll Γ ms ms') :
      Member.AlphaAll Γ (.spread e :: ms) (.spread e' :: ms')

end

theorem Expr.Alpha.span_eq {Γ : Pairing} {e e' : Expr} (h : e.Alpha Γ e') : e.span = e'.span := by
  cases h <;> rfl

/-! ## Names that are bound alike -/

namespace Pairing

variable {Γ : Pairing} {params : List String} {x y a : String}

theorem binds_self (h : a ∉ params → Γ.Binds a a) : Binds (params.zip params ++ Γ) a a := by
  induction params with
  | nil => exact h List.not_mem_nil
  | cons p params ih =>
    by_cases hp : a = p
    · exact .inl ⟨hp, hp⟩
    · exact .inr ⟨hp, hp, ih fun hmem => h (List.not_mem_cons_of_ne_of_not_mem hp hmem)⟩

/-- Lambdas with other parameters do not come between. -/
theorem binds_outer (hx : x ∉ params) (hy : y ∉ params) (h : Γ.Binds x y) :
    Binds (params.zip params ++ Γ) x y := by
  induction params with
  | nil => exact h
  | cons p params ih =>
    rw [List.mem_cons, not_or] at hx hy
    obtain ⟨hxp, hx⟩ := hx
    obtain ⟨hyp, hy⟩ := hy
    exact .inr ⟨hxp, hyp, ih hx hy⟩

/-- A parameter is bound where its new name is. -/
theorem binds_renamed (hx : x ∈ params) (hy : y ∉ params) :
    Binds (params.zip (params.map fun p => if p = x then y else p) ++ Γ) x y := by
  induction params with
  | nil => cases hx
  | cons p params ih =>
    rw [List.mem_cons, not_or] at hy
    obtain ⟨hyp, hy⟩ := hy
    by_cases hp : x = p
    · rw [List.map_cons, if_pos hp.symm, List.zip_cons_cons, List.cons_append]
      exact .inl ⟨hp, rfl⟩
    · rw [List.map_cons, if_neg (Ne.symm hp), List.zip_cons_cons, List.cons_append]
      exact .inr ⟨hp, hyp, ih ((List.mem_cons.mp hx).resolve_left hp) hy⟩

theorem binds_other (hx : a ≠ x) (hy : a ≠ y) (h : Γ.Binds a a) :
    Binds (params.zip (params.map fun p => if p = x then y else p) ++ Γ) a a := by
  induction params with
  | nil => exact h
  | cons p params ih =>
    by_cases hp : p = x
    · rw [List.map_cons, if_pos hp, List.zip_cons_cons, List.cons_append]
      exact .inr ⟨hp ▸ hx, hy, ih⟩
    · rw [List.map_cons, if_neg hp, List.zip_cons_cons, List.cons_append]
      by_cases ha : a = p
      · exact .inl ⟨ha, ha⟩
      · exact .inr ⟨ha, ha, ih⟩

end Pairing

/-! ## Expressions and their renamings -/

mutual

theorem Expr.alpha_self {Γ : Pairing} : (e : Expr) → (∀ a ∈ e.names, Γ.Binds a a) → e.Alpha Γ e
  | .number _ _, _ => .number
  | .string _ _, _ => .string
  | .boolean _ _, _ => .boolean
  | .null _, _ => .null
  | .blob _ _ _, _ => .blob
  | .identifier _ name, h => .identifier (h name (List.mem_singleton_self name))
  | .relative _ _ _, _ => .relative
  | .array _ es, h => .array (Expr.alphaAll_self es h)
  | .object _ ms, h => .object (Member.alphaAll_self ms h)
  | .call _ callee args, h => by
    obtain ⟨hcallee, hargs⟩ := List.forall_mem_append.mp h
    exact .call (Expr.alpha_self callee hcallee) (Expr.alphaAll_self args hargs)
  | .lambda _ params body, h => by
    obtain ⟨_, hbody⟩ := List.forall_mem_append.mp h
    exact .lambda rfl (Expr.alpha_self body fun a ha => Pairing.binds_self fun _ => hbody a ha)
  | .binary _ _ l r, h => by
    obtain ⟨hl, hr⟩ := List.forall_mem_append.mp h
    exact .binary (Expr.alpha_self l hl) (Expr.alpha_self r hr)
  | .unary _ _ e, h => .unary (Expr.alpha_self e h)

theorem Expr.alphaAll_self {Γ : Pairing} : (es : List Expr) →
    (∀ a ∈ Expr.namesAll es, Γ.Binds a a) → Expr.AlphaAll Γ es es
  | [], _ => .nil
  | e :: es, h => by
    obtain ⟨he, hes⟩ := List.forall_mem_append.mp h
    exact .cons (Expr.alpha_self e he) (Expr.alphaAll_self es hes)

theorem Member.alphaAll_self {Γ : Pairing} : (ms : List Member) →
    (∀ a ∈ Member.namesAll ms, Γ.Binds a a) → Member.AlphaAll Γ ms ms
  | [], _ => .nil
  | .property _ e :: ms, h => by
    obtain ⟨he, hms⟩ := List.forall_mem_append.mp h
    exact .property (Expr.alpha_self e he) (Member.alphaAll_self ms hms)
  | .spread e :: ms, h => by
    obtain ⟨he, hms⟩ := List.forall_mem_append.mp h
    exact .spread (Expr.alpha_self e he) (Member.alphaAll_self ms hms)

end

/-- The name `x` is bound where `y` is, and every other name where it is itself. -/
structure Pairing.Renames (Γ : Pairing) (x y : String) : Prop where
  renamed : Γ.Binds x y
  others : ∀ a, a ≠ x → a ≠ y → Γ.Binds a a

mutual

/-- The body of a lambda in which `x` is called `y` from now on. -/
theorem Expr.alpha_rename {x y : String} {Γ : Pairing} (hΓ : Γ.Renames x y) : (e : Expr) →
    y ∉ e.names → e.Alpha Γ (e.rename x y)
  | .number _ _, _ => .number
  | .string _ _, _ => .string
  | .boolean _ _, _ => .boolean
  | .null _, _ => .null
  | .blob _ _ _, _ => .blob
  | .identifier _ name, hy => by
    refine .identifier ?_
    by_cases hx : name = x
    · rw [if_pos hx, hx]
      exact hΓ.renamed
    · rw [if_neg hx]
      exact hΓ.others name hx fun h => hy (h ▸ List.mem_singleton_self name)
  | .relative _ _ _, _ => .relative
  | .array _ es, hy => .array (Expr.alphaAll_rename hΓ es hy)
  | .object _ ms, hy => .object (Member.alphaAll_rename hΓ ms hy)
  | .call _ callee args, hy => by
    obtain ⟨hcallee, hargs⟩ := not_or.mp (mt List.mem_append.mpr hy)
    exact .call (Expr.alpha_rename hΓ callee hcallee) (Expr.alphaAll_rename hΓ args hargs)
  | .lambda _ params body, hy => by
    obtain ⟨hparams, hbody⟩ := not_or.mp (mt List.mem_append.mpr hy)
    refine .lambda rfl ?_
    by_cases hx : x ∈ params
    · -- The lambda binds the name itself, so its body is left.
      rw [if_pos hx]
      refine Expr.alpha_self body fun a ha => Pairing.binds_self fun hmem => ?_
      exact hΓ.others a (fun h => hmem (h ▸ hx)) fun h => hbody (h ▸ ha)
    · rw [if_neg hx]
      refine Expr.alpha_rename ⟨Pairing.binds_outer hx hparams hΓ.renamed, fun a hax hay => ?_⟩
        body hbody
      exact Pairing.binds_self fun _ => hΓ.others a hax hay
  | .binary _ _ l r, hy => by
    obtain ⟨hl, hr⟩ := not_or.mp (mt List.mem_append.mpr hy)
    exact .binary (Expr.alpha_rename hΓ l hl) (Expr.alpha_rename hΓ r hr)
  | .unary _ _ e, hy => .unary (Expr.alpha_rename hΓ e hy)

theorem Expr.alphaAll_rename {x y : String} {Γ : Pairing} (hΓ : Γ.Renames x y) :
    (es : List Expr) → y ∉ Expr.namesAll es → Expr.AlphaAll Γ es (Expr.renameAll x y es)
  | [], _ => .nil
  | e :: es, hy => by
    obtain ⟨he, hes⟩ := not_or.mp (mt List.mem_append.mpr hy)
    exact .cons (Expr.alpha_rename hΓ e he) (Expr.alphaAll_rename hΓ es hes)

theorem Member.alphaAll_rename {x y : String} {Γ : Pairing} (hΓ : Γ.Renames x y) :
    (ms : List Member) → y ∉ Member.namesAll ms → Member.AlphaAll Γ ms (Member.renameAll x y ms)
  | [], _ => .nil
  | .property _ e :: ms, hy => by
    obtain ⟨he, hms⟩ := not_or.mp (mt List.mem_append.mpr hy)
    exact .property (Expr.alpha_rename hΓ e he) (Member.alphaAll_rename hΓ ms hms)
  | .spread e :: ms, hy => by
    obtain ⟨he, hms⟩ := not_or.mp (mt List.mem_append.mpr hy)
    exact .spread (Expr.alpha_rename hΓ e he) (Member.alphaAll_rename hΓ ms hms)

end

/-! ## The renamed document -/

/-- Every name is bound where it is itself. -/
def Pairing.Diagonal (Γ : Pairing) : Prop := ∀ a, Γ.Binds a a

theorem Pairing.diagonal_nil : Pairing.Diagonal [] := fun _ => rfl

theorem Pairing.Diagonal.enter {Γ : Pairing} (h : Γ.Diagonal) (params : List String) :
    Diagonal (params.zip params ++ Γ) := fun a => binds_self fun _ => h a

theorem Expr.alpha_refl {Γ : Pairing} (h : Γ.Diagonal) (e : Expr) : e.Alpha Γ e :=
  Expr.alpha_self e fun a _ => h a

theorem Expr.alpha_renameParameter {x y : String} {Γ : Pairing} (h : Γ.Diagonal) {e : Expr}
    (hy : y ∉ e.names) : e.Alpha Γ (e.renameParameter x y) := by
  cases e with
  | lambda span params body =>
    obtain ⟨hparams, hbody⟩ := not_or.mp (mt List.mem_append.mpr hy)
    rw [Expr.renameParameter]
    by_cases hx : x ∈ params
    · rw [if_pos hx]
      refine .lambda (List.length_map _).symm
        (Expr.alpha_rename ⟨?_, fun a hax hay => ?_⟩ body hbody)
      · exact Pairing.binds_renamed hx hparams
      · exact Pairing.binds_other hax hay (h a)
    · rw [if_neg hx]
      exact Expr.alpha_refl h _
  | _ => exact Expr.alpha_refl h _

section

variable {Γ : Pairing} {y : String} {f : Expr → Expr}

theorem Expr.alphaAll_modify (h : Γ.Diagonal)
    (hf : ∀ e : Expr, y ∉ e.names → e.Alpha Γ (f e)) (i : Nat) {es : List Expr}
    (hy : y ∉ Expr.namesAll es) : Expr.AlphaAll Γ es (es.modify i f) := by
  induction es generalizing i with
  | nil => rw [List.modify_nil]; exact .nil
  | cons e es ih =>
    obtain ⟨he, hes⟩ := not_or.mp (mt List.mem_append.mpr hy)
    cases i with
    | zero => exact .cons (hf e he) (Expr.alphaAll_self es fun a _ => h a)
    | succ i => exact .cons (Expr.alpha_refl h e) (ih i hes)

theorem Member.alphaAll_modify (h : Γ.Diagonal)
    (hf : ∀ e : Expr, y ∉ e.names → e.Alpha Γ (f e)) (i : Nat) {ms : List Member}
    (hy : y ∉ Member.namesAll ms) : Member.AlphaAll Γ ms (ms.modify i (Member.modify f)) := by
  induction ms generalizing i with
  | nil => rw [List.modify_nil]; exact .nil
  | cons m ms ih =>
    have hself : Member.AlphaAll Γ ms ms := Member.alphaAll_self ms fun a _ => h a
    cases m with
    | property key e =>
      obtain ⟨he, hms⟩ := not_or.mp (mt List.mem_append.mpr hy)
      cases i with
      | zero => exact .property (hf e he) hself
      | succ i => exact .property (Expr.alpha_refl h e) (ih i hms)
    | spread e =>
      obtain ⟨he, hms⟩ := not_or.mp (mt List.mem_append.mpr hy)
      cases i with
      | zero => exact .spread (hf e he) hself
      | succ i => exact .spread (Expr.alpha_refl h e) (ih i hms)

/-- A change of one child that keeps the meaning of names keeps it in the whole. -/
theorem Expr.alpha_modifyChild (h : Γ.Diagonal)
    (hf : ∀ (Γ : Pairing) (e : Expr), Γ.Diagonal → y ∉ e.names → e.Alpha Γ (f e)) (i : Nat)
    {e : Expr} (hy : y ∉ e.names) : e.Alpha Γ (e.modifyChild f i) := by
  have hself (e : Expr) : e.Alpha Γ e := Expr.alpha_refl h e
  cases e with
  | array span es => exact .array (Expr.alphaAll_modify h (hf Γ · h) i hy)
  | object span ms => exact .object (Member.alphaAll_modify h (hf Γ · h) i hy)
  | call span callee args =>
    obtain ⟨hcallee, hargs⟩ := not_or.mp (mt List.mem_append.mpr hy)
    cases i with
    | zero => exact .call (hf Γ callee h hcallee) (Expr.alphaAll_self args fun a _ => h a)
    | succ i => exact .call (hself callee) (Expr.alphaAll_modify h (hf Γ · h) i hargs)
  | lambda span params body =>
    obtain ⟨_, hbody⟩ := not_or.mp (mt List.mem_append.mpr hy)
    cases i with
    | zero => exact .lambda rfl (hf _ body (h.enter params) hbody)
    | succ i => exact hself _
  | binary span op l r =>
    obtain ⟨hl, hr⟩ := not_or.mp (mt List.mem_append.mpr hy)
    match i with
    | 0 => exact .binary (hf Γ l h hl) (hself r)
    | 1 => exact .binary (hself l) (hf Γ r h hr)
    | i + 2 => exact hself _
  | unary span op e =>
    cases i with
    | zero => exact .unary (hf Γ e h hy)
    | succ i => exact hself _
  | _ => exact hself _

end

/-- A document in which one parameter of one lambda has a new name is the same up to the names of
parameters. -/
theorem Expr.alpha_renameAt {x y : String} (position : List Nat) {Γ : Pairing} {e : Expr}
    (h : Γ.Diagonal) (hy : y ∉ e.names) : e.Alpha Γ (e.renameAt x y position) := by
  induction position generalizing Γ e with
  | nil => exact Expr.alpha_renameParameter h hy
  | cons i position ih => exact Expr.alpha_modifyChild h (fun Γ e h hy => ih h hy) i hy

end LazyConfig
