-- Contracts between bodies. A body is interrupted by its own requests: others run then, keep values
-- and define bindings. What it can rely on is what all bodies agree to keep, and that each answer
-- it gets is an answer as agreed.
-- Main statements: a contract that every body honors is honored at every moment of a run, and by
-- every program from its first moment to its last.
import LazyConfig.Proofs.Engine.Permanence

namespace LazyConfig.Store

variable {T R α β : Type}

/-! ## Contracts -/

/-- What the bodies of bindings agree on: what holds of the store whenever a request is made; which
bindings the body of a binding asks for, or the client, who is none; what the answer to a request
tells; and what the outcome of a body tells. -/
structure Contract (T : Type) where
  keeps : Store T → Prop
  asks : Option String → String → Prop
  answers : Store T → String → Except EvalError Value → Prop
  ends : Option String → Store T → Except EvalError Value → Prop

namespace Contract

variable (C : Contract T)

/-- Run on the store, the program keeps the contract when it asks, asks for some bindings only, and
ends as it should, whatever it is answered in between according to the contract. -/
def Honors (asks : String → Prop) (post : Store T → α → Prop) : Program T R α → Store T → Prop
  | .done a, s => post s a
  | .define name body next, s =>
    Honors asks post (next (s.define name body).1) (s.define name body).2
  | .contains name next, s => C.keeps s ∧ Honors asks post (next (s.contains name)) s
  | .value _ name next, s => C.keeps s ∧ asks name ∧
      ∀ s' r, s.Extends s' → C.keeps s' → C.answers s' name r → Honors asks post (next r) s'

/-- Each of the bindings was asked for by the next one, and the last one by the client. -/
def Linked : List String → Prop
  | [] => True
  | n :: callers => C.asks callers.head? n ∧ Linked callers

/-- All who wait go on according to the contract when they are answered. -/
def Waits (s : Store T) : List (Call T R) → Prop
  | [] => True
  | call :: callers =>
    (∀ s' r, s.Extends s' → C.keeps s' → C.answers s' call.name r →
      C.Honors (C.asks (callers.map (·.name)).head?) (C.ends (callers.map (·.name)).head?)
        (call.next r) s') ∧ Waits s callers

/-- A contract that all bodies honor. What needs no body is answered as agreed, and so is what a
body ends with. -/
structure Kept (behaviour : Behaviour T R) : Prop where
  now {s active n r} : C.keeps s → Disciplined s active → C.Linked active →
    C.asks active.head? n → s.reply n = .now r → C.answers s n r
  body {s n b} (context : R) : C.keeps s → s.reply n = .run b →
    C.Honors (C.asks (some n)) (C.ends (some n)) (behaviour b context) (s.start n)
  finish {s n r} : s.state? n = some .inProgress → C.ends (some n) s r →
    C.keeps (s.finish n r).2 ∧ C.answers (s.finish n r).2 n (s.finish n r).1

variable {C} {asks asks' : String → Prop} {post : Store T → α → Prop} {s s' : Store T}

/-! ## Programs -/

/-- A program that asks for less and ends with more honors the contract too. -/
theorem Honors.mono {post' : Store T → α → Prop} {p : Program T R α} (h : C.Honors asks post p s)
    (hasks : ∀ n, asks n → asks' n) (hpost : ∀ s' a, s.Extends s' → post s' a → post' s' a) :
    C.Honors asks' post' p s := by
  induction p generalizing s with
  | done a => exact hpost s a (.refl s) h
  | define name body next ih =>
    have hext := extends_define s name body
    exact ih _ h fun s' a hext' => hpost s' a (hext.trans hext')
  | contains name next ih => exact ⟨h.1, ih _ h.2 hpost⟩
  | value context name next ih =>
    obtain ⟨hkeeps, hname, hnext⟩ := h
    refine ⟨hkeeps, hasks name hname, fun s' r hext hkeeps' hanswers => ?_⟩
    exact ih r (hnext s' r hext hkeeps' hanswers) fun s'' a hext' => hpost s'' a (hext.trans hext')

/-- One program after another honors the contract if the second one does after the first. -/
theorem honors_bind {post : Store T → β → Prop} {p : Program T R α} {f : α → Program T R β} :
    C.Honors asks post (p.bind f) s ↔
    C.Honors asks (fun s' a => C.Honors asks post (f a) s') p s := by
  induction p generalizing s with
  | done a => exact Iff.rfl
  | define name body next ih => exact ih _
  | contains name next ih => exact and_congr_right fun _ => ih _
  | value context name next ih =>
    refine and_congr_right fun _ => and_congr_right fun _ => ?_
    exact forall_congr' fun s' => forall_congr' fun r => forall_congr' fun _ =>
      forall_congr' fun _ => forall_congr' fun _ => ih r

theorem Honors.bind {post' : Store T → β → Prop} {p : Program T R α} {f : α → Program T R β}
    (h : C.Honors asks post p s)
    (hf : ∀ s' a, s.Extends s' → post s' a → C.Honors asks post' (f a) s') :
    C.Honors asks post' (p.bind f) s :=
  honors_bind.mpr (h.mono (fun _ hn => hn) hf)

theorem Waits.later {calls : List (Call T R)} (h : C.Waits s calls) (hext : s.Extends s') :
    C.Waits s' calls := by
  induction calls with
  | nil => trivial
  | cons call callers ih =>
    exact ⟨fun s'' r hext' => h.1 s'' r (hext.trans hext'), ih h.2⟩

/-! ## Moments -/

/-- The contract is honored by the program in control, and by all who wait. -/
structure Holds (C : Contract T) (m : Moment T R) : Prop where
  disciplined : Disciplined m.store m.active
  linked : C.Linked m.active
  control : C.Honors (C.asks m.active.head?) (C.ends m.active.head?) m.program m.store
  waits : C.Waits m.store m.calls

variable {behaviour : Behaviour T R}

theorem holds_step (hC : C.Kept behaviour) {m m' : Moment T R} {new : List String}
    (h : Step behaviour m new m') (hm : C.Holds m) : C.Holds m' := by
  have hdisc := disciplined_step h hm.disciplined
  have hext := extends_step h hm.disciplined
  cases h with
  | define => exact ⟨hdisc, hm.linked, hm.control, hm.waits.later hext⟩
  | contains => exact ⟨hdisc, hm.linked, hm.control.2, hm.waits⟩
  | answer hr =>
    obtain ⟨hkeeps, hasks, hnext⟩ := hm.control
    have hanswers := hC.now hkeeps hm.disciplined hm.linked hasks hr
    exact ⟨hdisc, hm.linked, hnext _ _ (.refl _) hkeeps hanswers, hm.waits⟩
  | @enter context name next calls s body hr =>
    obtain ⟨hkeeps, hasks, hnext⟩ := hm.control
    refine ⟨hdisc, ⟨hasks, hm.linked⟩, hC.body context hkeeps hr, fun s' r hext' => ?_,
      hm.waits.later hext⟩
    exact hnext s' r (hext.trans hext')
  | @leave r call calls s =>
    have hstate : s.state? call.name = some .inProgress :=
      (hm.disciplined.mem_iff call.name).mpr List.mem_cons_self
    obtain ⟨hkeeps, hanswers⟩ := hC.finish hstate hm.control
    exact ⟨hdisc, hm.linked.2, hm.waits.1 _ _ hext hkeeps hanswers, hm.waits.2.later hext⟩

/-- A contract that the client honors from the beginning is honored at every moment. -/
theorem holds_run (hC : C.Kept behaviour) {limits : Limits}
    {client : Program T R (Except EvalError Value)} {m : Moment T R} {log : List String}
    (h : Run behaviour (.initial limits client) log m)
    (hclient : C.Honors (C.asks none) (C.ends none) client (empty limits)) : C.Holds m :=
  h.keeps (fun hstep => holds_step hC hstep) ⟨disciplined_empty limits, trivial, hclient, trivial⟩

/-! ## Whole programs -/

/-- A program that honors the contract ends as it should, if all bodies honor it. -/
theorem honors_exec (hC : C.Kept behaviour) (p : Program T R α) {active : List String}
    (hdisc : Disciplined s active) (hlinked : C.Linked active)
    (h : C.Honors (C.asks active.head?) post p s) :
    post (exec behaviour p s).2 (exec behaviour p s).1 := by
  refine exec_induction behaviour
    (motive := fun {α} p s => ∀ (active : List String) (post : Store T → α → Prop),
      Disciplined s active → C.Linked active → C.Honors (C.asks active.head?) post p s →
        post (exec behaviour p s).2 (exec behaviour p s).1)
    ?done ?define ?contains ?now ?forced p s active post hdisc hlinked h
  case done => exact fun a s active post _ _ h => h
  case define =>
    intro α name body next s ih active post hdisc hlinked h
    exact ih active post (hdisc.define name body) hlinked h
  case contains =>
    exact fun name next s ih active post hdisc hlinked h => ih active post hdisc hlinked h.2
  case now =>
    intro α context name next s r hr ih active post hdisc hlinked h
    obtain ⟨hkeeps, hasks, hnext⟩ := h
    have hanswers := hC.now hkeeps hdisc hlinked hasks hr
    rw [exec_value, value_of_now behaviour hr]
    exact ih active post hdisc hlinked (hnext s r (.refl s) hkeeps hanswers)
  case forced =>
    intro α context name next s b hr ihbody ihnext active post hdisc hlinked h
    obtain ⟨hkeeps, hasks, hnext⟩ := h
    have hends := ihbody (name :: active) (C.ends (some name)) (hdisc.start hr) ⟨hasks, hlinked⟩
      (hC.body context hkeeps hr)
    have hstate := ((disciplined_exec behaviour (behaviour b context) (hdisc.start hr)).1.mem_iff
      name).mpr List.mem_cons_self
    obtain ⟨hkeeps', hanswers⟩ := hC.finish hstate hends
    obtain ⟨hdisc', hext⟩ := disciplined_exec behaviour (.value context name .done) hdisc
    change Disciplined (s.value behaviour context name).2 active at hdisc'
    change s.Extends (s.value behaviour context name).2 at hext
    rw [exec_value]
    apply ihnext active post hdisc' hlinked
    rw [value_of_run behaviour hr] at hext ⊢
    exact hnext _ _ hext hkeeps' hanswers

/-- So does a request, which is answered as agreed. -/
theorem answers_value (hC : C.Kept behaviour) {active : List String} (hdisc : Disciplined s active)
    (hlinked : C.Linked active) (hkeeps : C.keeps s) {name : String}
    (hasks : C.asks active.head? name) (context : R) :
    C.keeps (s.value behaviour context name).2 ∧
      C.answers (s.value behaviour context name).2 name (s.value behaviour context name).1 := by
  have hrequest : C.Honors (C.asks active.head?) (fun s' r => C.keeps s' ∧ C.answers s' name r)
      (.value context name .done) s :=
    ⟨hkeeps, hasks, fun _ _ _ hkeeps' hanswers => ⟨hkeeps', hanswers⟩⟩
  exact honors_exec hC _ hdisc hlinked hrequest

end Contract

end LazyConfig.Store
