-- Values up to the names of parameters. Their lambdas may have other parameters, if the bodies mean
-- the same with the arguments that they were made with. No operator, no cost and no text can tell
-- such values apart.
-- Main statements: values that are the same up to the names of parameters have the same text and
-- cost, and operators give values that are again.
import LazyConfig.Proofs.Engine.Lockstep
import LazyConfig.Proofs.Source.Renaming
import LazyConfig.Proofs.Value.Operators
import LazyConfig.Value.Printer

namespace LazyConfig

/-! ## The same up to the names of parameters -/

mutual

/-- Two values are the same but for the names of parameters of lambdas in them. -/
inductive Value.Alpha : Value → Value → Prop
  | plain {v} (h : v.identity? = none) : Value.Alpha v v
  | array {id vs vs'} (h : Value.AlphaItems vs vs') : Value.Alpha (.array id vs) (.array id vs')
  | object {id es es'} (h : Value.AlphaEntries es es') :
      Value.Alpha (.object id es) (.object id es')
  | function {id f f'} (h : Function.Alpha f f') : Value.Alpha (.function id f) (.function id f')

/-- The body of a lambda means the same, with its own parameters and the arguments around it. -/
inductive Function.Alpha : Function → Function → Prop
  | lambda {Γ params params' body body' scopes env env'} (hparams : params.length = params'.length)
      (hbody : Expr.Alpha (params.zip params' ++ Γ) body body') (henv : Value.AlphaEnv Γ env env') :
      Function.Alpha (.lambda params body scopes env) (.lambda params' body' scopes env')
  | builtin {b} : Function.Alpha (.builtin b) (.builtin b)
  | host {name} : Function.Alpha (.host name) (.host name)

inductive Value.AlphaItems : List Value → List Value → Prop
  | nil : Value.AlphaItems [] []
  | cons {v v' vs vs'} (h : Value.Alpha v v') (hvs : Value.AlphaItems vs vs') :
      Value.AlphaItems (v :: vs) (v' :: vs')

inductive Value.AlphaEntries : List (String × Value) → List (String × Value) → Prop
  | nil : Value.AlphaEntries [] []
  | cons {key v v' rest rest'} (h : Value.Alpha v v') (hrest : Value.AlphaEntries rest rest') :
      Value.AlphaEntries ((key, v) :: rest) ((key, v') :: rest')

/-- Arguments of lambdas, and the pairs of parameters that they are for. -/
inductive Value.AlphaEnv : Pairing → List (String × Value) → List (String × Value) → Prop
  | nil : Value.AlphaEnv [] [] []
  | cons {Γ a b v v' rest rest'} (h : Value.Alpha v v') (hrest : Value.AlphaEnv Γ rest rest') :
      Value.AlphaEnv ((a, b) :: Γ) ((a, v) :: rest) ((b, v') :: rest')

end

namespace Value

mutual

theorem alpha_refl : (v : Value) → v.Alpha v
  | .undefined | .null | .boolean _ | .number _ | .bigint _ | .string _ | .blob _ => .plain rfl
  | .array _ vs => .array (alphaItems_refl vs)
  | .object _ es => .object (alphaEntries_refl es)
  | .function _ (.builtin _) => .function .builtin
  | .function _ (.host _) => .function .host
  | .function _ (.lambda params body _ env) => by
    obtain ⟨Γ, hΓ, henv⟩ := alphaEnv_refl env
    exact .function (.lambda rfl (Expr.alpha_refl (hΓ.enter params) body) henv)

theorem alphaItems_refl : (vs : List Value) → AlphaItems vs vs
  | [] => .nil
  | v :: vs => .cons (alpha_refl v) (alphaItems_refl vs)

theorem alphaEntries_refl : (es : List (String × Value)) → AlphaEntries es es
  | [] => .nil
  | (_, v) :: rest => .cons (alpha_refl v) (alphaEntries_refl rest)

theorem alphaEnv_refl :
    (env : List (String × Value)) → ∃ Γ : Pairing, Γ.Diagonal ∧ AlphaEnv Γ env env
  | [] => ⟨[], Pairing.diagonal_nil, .nil⟩
  | (name, v) :: rest => by
    obtain ⟨Γ, hΓ, hrest⟩ := alphaEnv_refl rest
    exact ⟨(name, name) :: Γ, hΓ.enter [name], .cons (alpha_refl v) hrest⟩

end

end Value

/-! ## What cannot tell them apart -/

theorem Function.Alpha.name_eq {f f' : Function} (h : f.Alpha f') : f.name = f'.name := by
  cases h <;> rfl

namespace Value

section

variable {v v' : Value}

theorem Alpha.isTruthy_eq (h : v.Alpha v') : v.isTruthy = v'.isTruthy := by
  cases h <;> rfl

theorem Alpha.identity?_eq (h : v.Alpha v') : v.identity? = v'.identity? := by
  cases h <;> rfl

end

theorem AlphaItems.length_eq {vs vs' : List Value} (h : AlphaItems vs vs') :
    vs.length = vs'.length := by
  induction vs generalizing vs' with
  | nil => cases h; rfl
  | cons v vs ih =>
    cases h with
    | cons _ hvs => rw [List.length_cons, List.length_cons, ih hvs]

theorem AlphaEntries.length_eq {es es' : List (String × Value)} (h : AlphaEntries es es') :
    es.length = es'.length := by
  induction es generalizing es' with
  | nil => cases h; rfl
  | cons e es ih =>
    cases h with
    | cons _ hes => rw [List.length_cons, List.length_cons, ih hes]

mutual

theorem Alpha.text_eq : {v v' : Value} → v.Alpha v' → v.text = v'.text
  | _, _, .plain _ => rfl
  | _, _, .array h => by rw [text, text, h.texts_eq]
  | _, _, .object .nil => rfl
  | _, _, .object (.cons h hrest) => by rw [text, text, AlphaEntries.texts_eq (.cons h hrest)]
  | _, _, .function h => by rw [text, text, h.name_eq]

theorem AlphaItems.texts_eq :
    {vs vs' : List Value} → AlphaItems vs vs' → itemTexts vs = itemTexts vs'
  | _, _, .nil => rfl
  | _, _, .cons h hvs => by rw [itemTexts, itemTexts, h.text_eq, hvs.texts_eq]

theorem AlphaEntries.texts_eq : {es es' : List (String × Value)} → AlphaEntries es es' →
    entryTexts es = entryTexts es'
  | _, _, .nil => rfl
  | _, _, .cons h hrest => by rw [entryTexts, entryTexts, h.text_eq, hrest.texts_eq]

end

mutual

theorem Alpha.costAfter_eq (seen : List Identity) : {v v' : Value} → v.Alpha v' →
    costAfter seen v = costAfter seen v'
  | _, _, .plain _ => rfl
  | _, _, .array h => by rw [costAfter, costAfter, h.cost_eq, h.length_eq]
  | _, _, .object h => by rw [costAfter, costAfter, h.cost_eq, h.length_eq]
  | _, _, .function _ => rfl

theorem AlphaItems.cost_eq (seen : List Identity) : {vs vs' : List Value} → AlphaItems vs vs' →
    itemsCost seen vs = itemsCost seen vs'
  | _, _, .nil => rfl
  | _, _, .cons h hvs => by simp only [itemsCost, h.costAfter_eq, hvs.cost_eq]

theorem AlphaEntries.cost_eq (seen : List Identity) : {es es' : List (String × Value)} →
    AlphaEntries es es' → entriesCost seen es = entriesCost seen es'
  | _, _, .nil => rfl
  | _, _, .cons h hrest => by simp only [entriesCost, h.costAfter_eq, hrest.cost_eq]

end

theorem Alpha.cost_eq {v v' : Value} (h : v.Alpha v') : v.cost = v'.cost :=
  congrArg Prod.fst (h.costAfter_eq [])

theorem Alpha.strictEquals_eq {a a' b b' : Value} (ha : a.Alpha a') (hb : b.Alpha b') :
    strictEquals a b = strictEquals a' b' := by
  cases hid : a.identity? with
  | some id =>
    rw [strictEquals_of_compound hid, strictEquals_of_compound (ha.identity?_eq ▸ hid),
      hb.identity?_eq]
  | none =>
    cases ha with
    | array | object | function => cases hid
    | plain =>
      cases hb with
      | plain => rfl
      | _ => cases a <;> rfl

/-! ## Arguments -/

/-- Names that are bound by the same pair stand for arguments that are alike. Others are the same
name and stand for no argument. -/
theorem AlphaEnv.lookup {Γ : Pairing} {env env' : List (String × Value)} (h : AlphaEnv Γ env env')
    {a b : String} (hab : Γ.Binds a b) :
    (∃ v v', env.lookup a = some v ∧ env'.lookup b = some v' ∧ v.Alpha v') ∨
      env.lookup a = none ∧ env'.lookup b = none ∧ a = b := by
  induction Γ generalizing env env' with
  | nil =>
    cases h
    exact .inr ⟨rfl, rfl, hab⟩
  | cons p Γ ih =>
    cases h with
    | cons hv hrest =>
      rcases hab with ⟨rfl, rfl⟩ | ⟨ha, hb, hab⟩
      · exact .inl ⟨_, _, List.lookup_cons_self, List.lookup_cons_self, hv⟩
      · rw [List.lookup_cons, List.lookup_cons, beq_false_of_ne ha, beq_false_of_ne hb]
        exact ih hrest hab

/-- The arguments of a call are added to those around the lambda. -/
theorem AlphaEnv.enter {Γ : Pairing} {env env' : List (String × Value)} (h : AlphaEnv Γ env env')
    {args args' : List Value} (hargs : AlphaItems args args') {params params' : List String}
    (hlen : args.length = params.length) (hlen' : params.length = params'.length) :
    AlphaEnv (params.zip params' ++ Γ) (params.zip args ++ env) (params'.zip args' ++ env') := by
  induction params generalizing params' args args' with
  | nil =>
    rw [List.length_nil, eq_comm, List.length_eq_zero_iff] at hlen'
    rw [hlen']
    exact h
  | cons p params ih =>
    cases hargs with
    | nil => cases hlen
    | cons harg hargs =>
      cases params' with
      | nil => cases hlen'
      | cons p' params' =>
        exact .cons harg (ih hargs (Nat.succ.inj hlen) (Nat.succ.inj hlen'))

/-! ## Objects -/

theorem AlphaEntries.insert {es es' : Object Value} (h : AlphaEntries es es') (key : String)
    {v v' : Value} (hv : v.Alpha v') : AlphaEntries (es.insert key v) (es'.insert key v') := by
  induction es generalizing es' with
  | nil =>
    cases h
    exact .cons hv .nil
  | cons e rest ih =>
    cases h with
    | @cons k _ _ _ _ he hrest =>
      by_cases hk : k = key
      · simp only [Object.insert, if_pos hk]
        exact .cons hv hrest
      · simp only [Object.insert, if_neg hk]
        exact .cons he (ih hrest)

theorem AlphaEntries.extend {es es' more more' : Object Value} (h : AlphaEntries es es')
    (hmore : AlphaEntries more more') : AlphaEntries (es.extend more) (es'.extend more') := by
  induction more generalizing es es' more' with
  | nil =>
    cases hmore
    exact h
  | cons e rest ih =>
    cases hmore with
    | cons hv hmore =>
      rw [Object.extend, Object.extend]
      exact ih (h.insert _ hv) hmore

/-! ## Operators -/

theorem AlphaItems.append {vs vs' ws ws' : List Value} (h : AlphaItems vs vs')
    (hws : AlphaItems ws ws') : AlphaItems (vs ++ ws) (vs' ++ ws') := by
  induction vs generalizing vs' with
  | nil =>
    cases h
    exact hws
  | cons v vs ih =>
    cases h with
    | cons hv hvs => exact .cons hv (ih hvs)

/-- The value with nothing inside of it. -/
def hollow : Value → Value
  | array id _ => array id []
  | object id _ => object id []
  | function id _ => function id (.host "")
  | v => v

variable {a a' b b' : Value}

theorem Alpha.hollow_eq (h : a.Alpha a') : a.hollow = a'.hollow := by
  cases h <;> rfl

theorem unary_hollow (op : UnaryOp) (v : Value) : unary op v.hollow = unary op v := by
  cases op <;> cases v <;> rfl

theorem compare_hollow (op : BinaryOp) (holds : Ordering → Bool) (a b : Value) :
    compare op holds a.hollow b.hollow = compare op holds a b := by
  cases a <;> cases b <;> rfl

theorem sub_hollow (a b : Value) : sub a.hollow b.hollow = sub a b := by
  cases a <;> cases b <;> rfl

theorem mul_hollow (a b : Value) : mul a.hollow b.hollow = mul a b := by
  cases a <;> cases b <;> rfl

theorem div_hollow (a b : Value) : div a.hollow b.hollow = div a b := by
  cases a <;> cases b <;> rfl

theorem rem_hollow (a b : Value) : rem a.hollow b.hollow = rem a b := by
  cases a <;> cases b <;> rfl

/-- Outcomes that are the same are alike. -/
theorem alike_self (r : Except RuntimeCause Value) : EndAlike Alpha r r := by
  cases r with
  | ok v => exact .ok (alpha_refl v)
  | error e => exact .error e

/-- An operation that sees nothing of what is inside of its operands. -/
theorem alike_of_hollow {f : Value → Value → Except RuntimeCause Value}
    (hf : ∀ a b, f a.hollow b.hollow = f a b) (ha : a.Alpha a') (hb : b.Alpha b') :
    EndAlike Alpha (f a b) (f a' b') := by
  rw [← hf a b, ha.hollow_eq, hb.hollow_eq, hf]
  exact alike_self _

theorem alike_unary (op : UnaryOp) (h : a.Alpha a') :
    EndAlike Alpha (unary op a) (unary op a') := by
  rw [← unary_hollow op a, h.hollow_eq, unary_hollow]
  exact alike_self _

/-- Of arrays the sum keeps the items, and of nothing else what is inside. -/
theorem alike_add (id : Identity) (ha : a.Alpha a') (hb : b.Alpha b') :
    EndAlike Alpha (add id a b) (add id a' b') := by
  cases ha with
  | plain hplain =>
    cases hb with
    | plain => exact alike_self _
    | _ => cases a <;> first | exact .error _ | cases hplain
  | array hvs =>
    cases hb with
    | plain hplain => cases b <;> first | exact .error _ | cases hplain
    | array hws => exact .ok (.array (hvs.append hws))
    | _ => exact .error _
  | _ =>
    cases hb with
    | plain => cases b <;> exact .error _
    | _ => exact .error _

theorem alike_binary (id : Identity) (op : BinaryOp) (ha : a.Alpha a') (hb : b.Alpha b') :
    EndAlike Alpha (binary id op a b) (binary id op a' b') := by
  cases op with
  | or =>
    simp only [binary, ha.isTruthy_eq]
    split
    · exact .ok ha
    · exact .ok hb
  | and =>
    simp only [binary, ha.isTruthy_eq]
    split
    · exact .ok hb
    · exact .ok ha
  | eq | strictEq | ne | strictNe =>
    simp only [binary, ha.strictEquals_eq hb]
    exact alike_self _
  | lt | le | gt | ge => exact alike_of_hollow (compare_hollow _ _) ha hb
  | add => exact alike_add id ha hb
  | sub => exact alike_of_hollow sub_hollow ha hb
  | mul => exact alike_of_hollow mul_hollow ha hb
  | div => exact alike_of_hollow div_hollow ha hb
  | rem => exact alike_of_hollow rem_hollow ha hb

end Value

end LazyConfig
