-- Footings that last through a run. What evaluation may rely on depends on the bindings of the
-- store, whatever their states, and on the values they have. Operations of the store only add
-- bindings, and what they come to keep are results of evaluation.
-- Main statement: on such a footing whatever evaluation results in is sound, and the store it
-- leaves fits.
import LazyConfig.Proofs.Document.Footing
import LazyConfig.Proofs.Document.Library
import LazyConfig.Proofs.Engine.History

namespace LazyConfig

namespace Store

variable {T : Type} {s s' s'' : Store T}

/-! ## Bindings whatever their states -/

/-- The names of the bindings with their bodies, in the order of definition. -/
def bodies (s : Store T) : List (String × T) := s.bindings.map fun b => (b.name, b.body)

theorem body?_eq_bodies (s : Store T) (name : String) :
    s.body? name = (s.bodies.find? fun b => b.1 = name).map (·.2) := by
  rw [body?, find?, bodies, List.find?_map, Option.map_map]
  rfl

theorem bodies_mark (s : Store T) (name : String) (state : BindingState) :
    (s.mark name state).bodies = s.bodies := by
  rw [bodies, mark, List.map_map, bodies]
  congr 1
  funext b
  simp only [Function.comp]
  split <;> rfl

theorem bodies_start (s : Store T) (name : String) : (s.start name).bodies = s.bodies :=
  bodies_mark s name .inProgress

theorem bodies_finish (s : Store T) (name : String) (r : Except EvalError Value) :
    (s.finish name r).2.bodies = s.bodies := by
  rcases finish_cases s name r with ⟨e, h⟩ | ⟨v, _, _, h⟩
  · rw [h]
    exact bodies_mark s name .unevaluated
  · rw [h]
    exact bodies_mark s name (.evaluated v)

/-- A store that has come about from another one: it has its bindings, perhaps more, and no more
steps. -/
structure Precedes (s s' : Store T) : Prop where
  bodies : ∃ added, s'.bodies = s.bodies ++ added
  steps : s'.stepsLeft ≤ s.stepsLeft

theorem Precedes.refl (s : Store T) : s.Precedes s := ⟨⟨[], by simp⟩, Nat.le_refl _⟩

theorem Precedes.trans (h : s.Precedes s') (h' : s'.Precedes s'') : s.Precedes s'' := by
  obtain ⟨added, hadded⟩ := h.bodies
  obtain ⟨more, hmore⟩ := h'.bodies
  exact ⟨⟨added ++ more, by rw [hmore, hadded, List.append_assoc]⟩, Nat.le_trans h'.steps h.steps⟩

theorem precedes_of_same (h : s'.bodies = s.bodies) (hsteps : s'.stepsLeft ≤ s.stepsLeft) :
    s.Precedes s' := ⟨⟨[], by rw [h, List.append_nil]⟩, hsteps⟩

theorem precedes_start (s : Store T) (name : String) : s.Precedes (s.start name) :=
  precedes_of_same (bodies_start s name) (Nat.sub_le _ _)

theorem precedes_finish (s : Store T) (name : String) (r : Except EvalError Value) :
    s.Precedes (s.finish name r).2 :=
  precedes_of_same (bodies_finish s name r) (Nat.le_of_eq (stepsLeft_finish s name r))

theorem precedes_define (s : Store T) (name : String) (body : T) :
    s.Precedes (s.define name body).2 := by
  refine ⟨?_, Nat.le_of_eq (stepsLeft_define s name body)⟩
  unfold define
  split
  · exact ⟨[], by simp⟩
  · exact ⟨[(name, body)], by simp [Store.bodies]⟩

theorem precedes_exec {R α : Type} (behaviour : Behaviour T R) (p : Program T R α) (s : Store T) :
    s.Precedes (exec behaviour p s).2 := by
  refine exec_induction behaviour (motive := fun p s => s.Precedes (exec behaviour p s).2)
    ?done ?define ?contains ?now ?forced p s
  case done => exact fun _ s => .refl s
  case define => exact fun name body next s ih => (precedes_define s name body).trans ih
  case contains => exact fun _ _ _ ih => ih
  case now =>
    intro α context name next s r hr ih
    rw [exec_value, value_of_now behaviour hr]
    exact ih
  case forced =>
    intro α context name next s b hr ihbody ihnext
    rw [exec_value]
    refine Precedes.trans ?_ ihnext
    rw [value_of_run behaviour hr]
    exact ((precedes_start s name).trans ihbody).trans (precedes_finish _ name _)

/-- Bindings that are there stay there. -/
theorem Precedes.body? (h : s.Precedes s') {name : String} {body : T}
    (hb : s.body? name = some body) : s'.body? name = some body := by
  obtain ⟨added, hadded⟩ := h.bodies
  rw [body?_eq_bodies] at hb ⊢
  obtain ⟨found, hfound, hbody⟩ := Option.map_eq_some_iff.mp hb
  rw [hadded, List.find?_append, hfound, Option.some_or, Option.map_some, hbody]

theorem Extends.body? (h : s.Extends s') {name : String} {body : T}
    (hb : s.body? name = some body) :
    s'.body? name = some body := by
  obtain ⟨found, hfound, rfl⟩ := Option.map_eq_some_iff.mp hb
  obtain ⟨found', hfound', hsame⟩ := h.body name found hfound
  rw [Store.body?, hfound', Option.map_some, hsame]

theorem precedes_addAll (s : Store Suspension) (bindings : List Suspension) :
    s.Precedes (s.addAll bindings) :=
  ⟨⟨bindings.map fun b => (b.path, b), by simp [Store.bodies, addAll]⟩, Nat.le_refl _⟩

end Store

open Store

namespace Footing

/-! ## Footings that last -/

/-- A store fits if something holds of its bodies that is kept when documents from files are added,
and if all values that it keeps are sound. The bodies of its bindings may be run, and all bindings
asked for. -/
structure Lasts (F : Footing) (base : Store Suspension → Prop) : Prop where
  fits_iff {s : Store Suspension} :
    F.fits s ↔ base s ∧ ∀ n v, s.state? n = some (.evaluated v) → F.Sound s v
  later {s s' : Store Suspension} : s.Precedes s' → F.later s s'
  same {s s' : Store Suspension} : s'.bodies = s.bodies → base s → base s'
  file {s : Store Suspension} {bytes : Bytes} {root : Expr} : base s → F.host.Readable bytes →
    parse F.host.maxParseDepth bytes = .ok root →
      firstTaken s.contains [] ((F.host.fileBindings bytes root).map (·.path)) = none →
        base (s.addAll (F.host.fileBindings bytes root))
  opens {s : Store Suspension} {n : String} {b : Suspension} :
    base s → s.body? n = some b → F.Opens s b
  known {s : Store Suspension} {n : String} : F.known s n

/-- With `left` levels the computation leaves a store that fits, and a result that is good. -/
def Ends (F : Footing) (left : Nat) : Judgement := fun _ good s x =>
  let out := s.exec (behaviour F.host) (x left).run
  F.fits out.2 ∧ ∀ a, out.1 = .ok a → good out.2 a

variable {F : Footing} {base : Store Suspension → Prop} {s s' : Store Suspension} {left : Nat}

/-- Expressions that may be evaluated in the scopes of a binding may so later. -/
theorem Opens.later {b : Suspension} (h : F.Opens s b) (hlater : F.later s s') : F.Opens s' b := by
  unfold Opens at h ⊢
  cases htask : b.task with
  | expression e =>
    rw [htask] at h
    exact F.place_later hlater h
  | members members =>
    rw [htask] at h
    exact ⟨fun e he => F.place_later hlater (h.1 e he),
      fun key value hmem => F.known_later hlater (h.2 key value hmem)⟩

namespace Lasts

variable (h : F.Lasts base)

include h

/-! ## Operations of the store -/

/-- The store still fits if it has more bindings, and keeps the same values or ones that are
sound. -/
theorem fits_later (hs : F.fits s) (hlater : s.Precedes s') (hbase : base s')
    (hkept : ∀ n v, s'.state? n = some (.evaluated v) →
      s.state? n = some (.evaluated v) ∨ F.Sound s' v) : F.fits s' := by
  refine h.fits_iff.mpr ⟨hbase, fun n v hv => ?_⟩
  rcases hkept n v hv with hold | hsound
  · exact Upholds.later ((h.fits_iff.mp hs).2 n v hold) (h.later hlater)
  · exact hsound

theorem fits_start (hs : F.fits s) (name : String) : F.fits (s.start name) :=
  h.fits_later hs (precedes_start s name) (h.same (bodies_start s name) (h.fits_iff.mp hs).1)
    fun _ _ hv => Or.inl (state?_of_mark (by simp) hv)

theorem fits_finish (hs : F.fits s) (name : String) {r : Except EvalError Value}
    (hr : ∀ v, r = .ok v → F.Sound s v) :
    F.fits (s.finish name r).2 ∧
      ∀ v, (s.finish name r).1 = .ok v → F.Sound (s.finish name r).2 v := by
  have hprecedes := precedes_finish s name r
  have hsound : ∀ v, r = .ok v → F.Sound (s.finish name r).2 v := fun v hv =>
    Upholds.later (hr v hv) (h.later hprecedes)
  refine ⟨h.fits_later hs hprecedes (h.same (bodies_finish s name r) (h.fits_iff.mp hs).1) ?_, ?_⟩
  · intro n v hv
    rcases state?_of_finish hv with hold | ⟨_, hresult⟩
    · exact Or.inl hold
    · exact Or.inr (hsound v hresult)
  · intro v hv
    rcases finish_cases s name r with ⟨e, hf⟩ | ⟨w, hw, _, hf⟩
    · rw [hf] at hv
      cases hv
    · rw [hf] at hv
      rw [hw, Except.ok.inj hv] at hsound ⊢
      exact hsound v rfl

theorem fits_addAll (hs : F.fits s) {bindings : List Suspension}
    (hbase : base (s.addAll bindings)) : F.fits (s.addAll bindings) := by
  refine h.fits_later hs (precedes_addAll s bindings) hbase fun n v hv => ?_
  rcases state?_addAll hv with hold | hnew
  · exact Or.inl hold
  · cases hnew

theorem fits_loadFile (hs : F.fits s) (path : String) :
    F.fits (s.exec (behaviour F.host) (Attempt.loadFile F.host path).run).2 := by
  rw [loadFile_eq]
  cases hread : F.host.storage.readBytes path with
  | error e => exact hs
  | ok bytes =>
    have hcontent : F.fits (s.exec (behaviour F.host)
        (Attempt.loadContent F.host (F.host.contentName bytes) path bytes).run).2 := by
      rw [exec_loadContent]
      split
      · exact hs
      cases hparse : parse F.host.maxParseDepth bytes with
      | error e => exact hs
      | ok root =>
        dsimp only
        rw [exec_loadDocument]
        cases hfree : firstTaken s.contains [] ((F.host.fileBindings bytes root).map (·.path)) with
        | none =>
          rw [Host.fileBindings] at hfree
          rw [hfree]
          exact h.fits_addAll hs (h.file (h.fits_iff.mp hs).1 ⟨path, hread⟩ hparse hfree)
        | some taken =>
          rw [Host.fileBindings] at hfree
          rw [hfree]
          exact hs
    dsimp only
    rw [exec_run_bind]
    generalize s.exec (behaviour F.host)
      (Attempt.loadContent F.host (F.host.contentName bytes) path bytes).run = out at hcontent ⊢
    obtain ⟨r, s'⟩ := out
    cases r <;> exact hcontent

/-! ## Evaluation -/

theorem carries (left : Nat) : F.Carries (F.Ends left) where
  pure hs ha := ⟨hs, fun _ heq => Except.ok.inj heq ▸ ha⟩
  throw _ hs := ⟨hs, nofun⟩
  bind {α β good good' s x f} hs hx hf := by
    have hlater := h.later (precedes_exec (behaviour F.host) (x left).run s)
    unfold Ends at hx ⊢
    rw [exec_run_bind]
    generalize s.exec (behaviour F.host) (x left).run = out at hx hlater ⊢
    obtain ⟨r, s'⟩ := out
    cases r with
    | error e => exact ⟨hx.1, nofun⟩
    | ok a => exact hf a s' hx.1 hlater (hx.2 a rfl)
  located {α good s x} span hx := by
    unfold Ends at hx ⊢
    rw [exec_adapt]
    refine ⟨hx.1, fun a ha => hx.2 a ?_⟩
    dsimp only at ha
    cases hr : (s.exec (behaviour F.host) (x left).run).1 with
    | error e =>
      rw [hr] at ha
      cases ha
    | ok b =>
      rw [hr] at ha
      exact ha
  contains _ hs _ _ := ⟨hs, fun _ _ _ => h.known⟩
  loadFile path hs := ⟨h.fits_loadFile hs path, fun _ _ => h.known⟩

theorem value (hs : F.fits s) (path : String)
    (hinside : ∀ left', left = left' + 1 → F.CarriesAt (F.Ends left')) :
    F.Ends left Value F.Sound s fun j => Attempt.value j path := by
  show F.fits (s.value (behaviour F.host) left path).2 ∧
    ∀ v, (s.value (behaviour F.host) left path).1 = .ok v →
      F.Sound (s.value (behaviour F.host) left path).2 v
  cases hr : s.reply path with
  | now r =>
    rw [value_of_now _ hr]
    refine ⟨hs, fun v hv => ?_⟩
    dsimp only at hv
    subst hv
    exact (h.fits_iff.mp hs).2 path v (state?_of_reply_ok hr)
  | run b =>
    rw [value_of_run _ hr]
    have hopens := (h.opens (h.fits_iff.mp hs).1 (body?_of_reply hr)).later
      (h.later (precedes_start s path))
    cases left with
    | zero => exact h.fits_finish (h.fits_start hs path) path nofun
    | succ left =>
      obtain ⟨hfits, hsound⟩ := (hinside left rfl).task (h.fits_start hs path) hopens
      exact h.fits_finish hfits path hsound

/-- Evaluation leaves stores that fit, and results that are sound, at every level. -/
theorem ends (left : Nat) : F.CarriesAt (F.Ends left) := by
  induction left with
  | zero =>
    refine ⟨h.carries 0, fun hs _ => h.value hs _ nofun, fun count hs _ => ?_⟩
    exact ⟨hs, nofun⟩
  | succ left ih =>
    refine ⟨h.carries (left + 1), fun hs _ => h.value hs _ ?_, ?_⟩
    · intro left' heq
      obtain rfl := Nat.succ.inj heq
      exact ih
    · intro s frame e count hs hready
      unfold Ends
      show F.fits (s.exec (behaviour F.host) (evaluator F.host left frame e count).run).2 ∧
        ∀ a, (s.exec (behaviour F.host) (evaluator F.host left frame e count).run).1 = .ok a →
          F.Sound (s.exec (behaviour F.host) (evaluator F.host left frame e count).run).2 a.1
      rw [evaluator_eq]
      exact ih.eval frame e hs hready count

end Lasts

end Footing

end LazyConfig
