-- Attempts made again. An attempt leaves more behind than it found: values it kept and files it
-- included. It does not go another way for that: what was bound later is in files that nothing it
-- looks at is below, and what it failed at is not kept.
-- Main statement: at every level, what was evaluated once is evaluated the same way again.
import LazyConfig.Proofs.Document.Footing
import LazyConfig.Proofs.Document.Library

namespace LazyConfig

open Store

/-! ## Later stores -/

variable {host : Host} {s s' t : Store Suspension} {name : String} {b : Suspension}

/-- Every file whose name the scope is below is loaded, so that including a file adds nothing to the
scope. -/
def Host.Closed (host : Host) (s : Store Suspension) (scope : String) : Prop :=
  ∀ bytes, host.Readable bytes → Below (host.contentName bytes) scope →
    s.contains (host.contentName bytes) = true

/-- A later store with some files included in addition. -/
structure Host.Grows (host : Host) (s s' : Store Suspension) : Prop extends s.Extends s' where
  limits : s'.limits = s.limits
  fresh : ∀ n, s'.contains n = true → s.contains n = false → ∃ bytes, host.Readable bytes ∧
    Below (host.contentName bytes) n ∧ s.contains (host.contentName bytes) = false

theorem Host.Grows.refl (s : Store Suspension) : host.Grows s s := by
  refine ⟨.refl s, rfl, fun n hn hnot => ?_⟩
  rw [hn] at hnot
  cases hnot

theorem Host.Grows.trans (h : host.Grows s s') (h' : host.Grows s' t) : host.Grows s t := by
  refine ⟨h.toExtends.trans h'.toExtends, h'.limits.trans h.limits, fun n hn hnot => ?_⟩
  by_cases hmiddle : s'.contains n = true
  · exact h.fresh n hmiddle hnot
  · obtain ⟨bytes, hread, hbelow, hfree⟩ := h'.fresh n hn (by simpa using hmiddle)
    refine ⟨bytes, hread, hbelow, ?_⟩
    rw [← Bool.not_eq_true] at hfree ⊢
    exact fun hc => hfree (h.toExtends.contains hc)

theorem Host.Closed.extends {scope : String} (h : host.Closed s scope) (hext : s.Extends s') :
    host.Closed s' scope := fun bytes hread hbelow => hext.contains (h bytes hread hbelow)

/-- What is bound in a closed scope is bound in it later, and nothing else is. -/
theorem Host.Grows.contains_eq (h : host.Grows s t) {scope : String} (hscope : host.Closed s scope)
    (name : String) : t.contains (childPath scope name) = s.contains (childPath scope name) := by
  rw [Bool.eq_iff_iff]
  refine ⟨fun hc => ?_, h.toExtends.contains⟩
  by_contra hnot
  obtain ⟨bytes, hread, hbelow, hfree⟩ := h.fresh _ hc (by simpa using hnot)
  have hscope' :=
    ((Below.refl scope).child name).of_below hbelow (host.dot_not_mem_contentName bytes)
  rw [hscope bytes hread hscope'] at hfree
  cases hfree

/-- The second store holds the same as the first one, and has no more steps left. -/
structure Store.Alike (s t : Store Suspension) : Prop where
  find : ∀ n, t.find? n = s.find? n
  names : t.names = s.names
  limits : t.limits = s.limits
  bytes : t.bytesLeft = s.bytesLeft
  steps : t.stepsLeft ≤ s.stepsLeft

theorem Store.Alike.refl (s : Store Suspension) : s.Alike s :=
  ⟨fun _ => rfl, rfl, rfl, rfl, Nat.le_refl _⟩

theorem Store.Alike.state (h : s.Alike t) (n : String) : t.state? n = s.state? n := by
  rw [state?, h.find, state?]

theorem Store.Alike.contains (h : s.Alike t) (n : String) : t.contains n = s.contains n := by
  rw [contains_eq, h.find, contains_eq]

theorem Store.Alike.grows (h : s.Alike t) : host.Grows s t := by
  refine ⟨⟨⟨[], by simp [h.names]⟩, fun n b hb => ⟨b, (h.find n).trans hb, rfl⟩,
    fun n v hv => (h.state n).trans hv⟩, h.limits, fun n hn hnot => ?_⟩
  rw [h.contains, hnot] at hn
  cases hn

/-! ## The ground -/

namespace Host

/-- All lambdas that are kept, and all bodies, are in closed scopes. -/
structure Firm (host : Host) (s : Store Suspension) : Prop where
  bodies : ∀ {n b}, s.body? n = some b → ∀ scope ∈ b.scopes, host.Closed s scope
  kept : ∀ {n v}, s.state? n = some (.evaluated v) →
    ∀ c ∈ v.closures, ∀ scope ∈ c.scopes, host.Closed s scope
  disciplined : ∃ active, Disciplined s active

/-- Expressions in closed scopes, on a store where there are no others. -/
def footing (host : Host) : Footing where
  host := host
  fits := host.Firm
  later := host.Grows
  place s scopes _ _ := ∀ scope ∈ scopes, host.Closed s scope
  known _ _ := True
  place_child h _ := h
  place_later hlater h scope hscope := (h scope hscope).extends hlater.toExtends
  known_later _ h := h

end Host

/-! ## Outcomes that show again -/

variable {α β : Type}

/-- How an attempt goes that failed before, when it took so many steps: it fails in the same way,
and takes no more steps than before; or it runs out of steps, as fewer of them are left than it
took. -/
inductive FailsAgain (e : EvalError) (taken : Nat) (t : Store Suspension) :
    Except EvalError α × Store Suspension → Prop
  | same {t'} (alike : t.Alike t') (steps : t.stepsLeft ≤ t'.stepsLeft + taken) :
      FailsAgain e taken t (.error e, t')
  | late {t'} (alike : t.Alike t') (steps : t.stepsLeft < taken) :
      FailsAgain e taken t (.error (.timeLimit t.limits.steps), t')

/-- The outcome of an attempt on a store, and that it shows again: a result whatever was done since,
and an error right afterwards. -/
inductive Shows (host : Host) (good : Store Suspension → α → Prop) (s : Store Suspension)
    (x : Attempt α) : Except EvalError α × Store Suspension → Prop
  | ok {a s'} (firm : host.Firm s') (grows : host.Grows s s') (hgood : good s' a)
      (again : ∀ t, host.Grows s' t → t.exec (behaviour host) x.run = (.ok a, t)) :
      Shows host good s x (.ok a, s')
  | error {e s'} (firm : host.Firm s') (grows : host.Grows s s')
      (again : ∀ t, s'.Alike t →
        FailsAgain e (s.stepsLeft - s'.stepsLeft) t (t.exec (behaviour host) x.run)) :
      Shows host good s x (.error e, s')

/-- The attempt with `left` levels, run on a store, shows again. -/
def Replays (host : Host) (left : Nat) : Judgement := fun _ good s x =>
  Shows host good s (x left) (s.exec (behaviour host) (x left).run)

variable {left : Nat} {good : Store Suspension → α → Prop} {good' : Store Suspension → β → Prop}

/-- An attempt that does nothing but fail does so again. -/
theorem shows_error (hs : host.Firm s) {x : Attempt α} {e : EvalError}
    (h : ∀ t, s.Alike t → t.exec (behaviour host) x.run = (.error e, t)) :
    Shows host good s x (.error e, s) := by
  refine .error hs (.refl s) fun t ht => ?_
  rw [h t ht]
  exact .same (.refl t) (Nat.le_add_right _ _)

theorem FailsAgain.mono {e : EvalError} {taken taken' : Nat}
    {out : Except EvalError α × Store Suspension} (h : FailsAgain e taken t out)
    (hle : taken ≤ taken') : FailsAgain e taken' t out := by
  cases h with
  | same alike steps => exact .same alike (by omega)
  | late alike steps => exact .late alike (by omega)

theorem replays_pure (hs : host.Firm s) {a : α} (ha : good s a) :
    Replays host left α good s fun _ => pure a := .ok hs (.refl s) ha fun _ _ => rfl

theorem replays_throw (hs : host.Firm s) (e : EvalError) :
    Replays host left α good s fun _ => throw e := shows_error hs fun _ _ => rfl

theorem replays_bind {x : Nat → Attempt α} {f : Nat → α → Attempt β}
    (hx : Replays host left α good s x)
    (hf : ∀ a s', host.Firm s' → host.Grows s s' → good s' a →
      Replays host left β good' s' fun j => f j a) :
    Replays host left β good' s fun j => x j >>= f j := by
  have hsteps := stepsLeft_run_le (stepsLeft_value_le (behaviour host)) (x left).run s
  unfold Replays at hx ⊢
  rw [exec_run_bind]
  change ((s.exec (behaviour host) (x left).run).2.stepsLeft ≤ _) at hsteps
  generalize s.exec (behaviour host) (x left).run = out at hx hsteps ⊢
  cases hx with
  | @error e s' firm grows again =>
    refine .error firm grows fun t ht => ?_
    have hagain := again t ht
    rw [exec_run_bind]
    generalize t.exec (behaviour host) (x left).run = out at hagain ⊢
    cases hagain with
    | same alike steps => exact .same alike steps
    | late alike steps => exact .late alike steps
  | @ok a s' firm grows hgood again =>
    have hfa := hf a s' firm grows hgood
    unfold Replays at hfa
    show Shows host good' s _ (s'.exec (behaviour host) (f left a).run)
    generalize s'.exec (behaviour host) (f left a).run = out at hfa ⊢
    cases hfa with
    | ok firm' grows' hgood' again' =>
      refine .ok firm' (grows.trans grows') hgood' fun t ht => ?_
      rw [exec_run_bind, again t (grows'.trans ht)]
      exact again' t ht
    | error firm' grows' again' =>
      refine .error firm' (grows.trans grows') fun t ht => ?_
      rw [exec_run_bind, again t (grows'.trans ht.grows)]
      exact (again' t ht).mono (Nat.sub_le_sub_right hsteps _)

theorem replays_located {x : Nat → Attempt α} (span : Span) (hx : Replays host left α good s x) :
    Replays host left α good s fun j => ExceptT.adapt (fun e => e.located span) (x j) := by
  unfold Replays at hx ⊢
  rw [exec_adapt]
  generalize s.exec (behaviour host) (x left).run = out at hx ⊢
  cases hx with
  | ok firm grows hgood again =>
    refine .ok firm grows hgood fun t ht => ?_
    rw [exec_adapt, again t ht]
    rfl
  | error firm grows again =>
    refine .error firm grows fun t ht => ?_
    have hagain := again t ht
    rw [exec_adapt]
    generalize t.exec (behaviour host) (x left).run = out at hagain ⊢
    cases hagain with
    | same alike steps => exact .same alike steps
    | late alike steps => exact .late alike steps

/-- A name in a closed scope is bound, or is never bound. -/
theorem replays_contains (hs : host.Firm s) {scope : String} (hscope : host.Closed s scope)
    (name : String) {good : Store Suspension → Bool → Prop} (hgood : ∀ found, good s found) :
    Replays host left Bool good s fun _ => Attempt.contains (childPath scope name) := by
  refine .ok hs (.refl s) (hgood _) fun t ht => ?_
  rw [exec_attempt_contains, ht.contains_eq hscope]

/-! ## Files -/

/-- A name that does not go on after the name of a file with a dot. -/
def Host.Heads (host : Host) (name : String) : Prop :=
  ∀ bytes, host.Readable bytes → Below (host.contentName bytes) name →
    host.contentName bytes = name

theorem Host.heads_contentName (host : Host) (bytes : Bytes) :
    host.Heads (host.contentName bytes) :=
  fun _ _ hbelow => (hbelow.eq_of_no_dot (host.dot_not_mem_contentName bytes)).symm

/-- The scopes of a document are closed once it is loaded. -/
theorem Host.Firm.addAll (hs : host.Firm s) {name : String} (hname : host.Heads name) (root : Expr)
    (hfree : firstTaken s.contains [] ((documentBindings name root).map (·.path)) = none) :
    host.Firm (s.addAll (documentBindings name root)) := by
  have hext := extends_addAll s (documentBindings name root)
  obtain ⟨active, hdisc⟩ := hs.disciplined
  refine ⟨fun {n b} hb scope hscope => ?_, fun {n v} hv c hc scope hscope => ?_, active, ?_⟩
  · rw [body?_addAll, Option.or_eq_some_iff] at hb
    rcases hb with hb | ⟨_, hb⟩
    · exact (hs.bodies hb scope hscope).extends hext
    · intro bytes hread hbelow
      have hwithin := within_documentBindings (List.mem_of_find?_eq_some hb)
      have hbelow' :=
        (hwithin.scopes scope hscope).of_below hbelow (host.dot_not_mem_contentName bytes)
      obtain ⟨top, htop, hpath⟩ := name_mem_documentBindings name root
      rw [hname bytes hread hbelow']
      exact (contains_addAll _ _ _).mpr (Or.inr ⟨top, htop, hpath⟩)
  · rcases state?_addAll hv with hold | hnew
    · exact (hs.kept hold c hc scope hscope).extends hext
    · cases hnew
  · have hend := (disciplined_exec (behaviour host) (Attempt.loadDocument name root).run hdisc).1
    rw [exec_loadDocument, hfree] at hend
    exact hend

theorem Host.grows_addAll {bytes : Bytes} (hread : host.Readable bytes)
    (hname : s.contains (host.contentName bytes) = false) (root : Expr) :
    host.Grows s (s.addAll (documentBindings (host.contentName bytes) root)) := by
  refine ⟨extends_addAll s _, rfl, fun n hn hnot => ⟨bytes, hread, ?_, hname⟩⟩
  rcases (contains_addAll _ _ _).mp hn with hn | ⟨b, hb, rfl⟩
  · rw [hn] at hnot
    cases hnot
  · exact (within_documentBindings hb).path

theorem replays_loadContent (hs : host.Firm s) {bytes : Bytes} (hread : host.Readable bytes)
    (path : String) :
    Replays host left Unit (fun _ _ => True) s fun _ =>
      Attempt.loadContent host (host.contentName bytes) path bytes := by
  unfold Replays
  rw [exec_loadContent]
  by_cases hc : s.contains (host.contentName bytes) = true
  · rw [if_pos hc]
    refine .ok hs (.refl s) trivial fun t ht => ?_
    rw [exec_loadContent, if_pos (ht.toExtends.contains hc)]
  rw [if_neg hc]
  cases hparse : parse host.maxParseDepth bytes with
  | error e =>
    refine shows_error hs fun t ht => ?_
    rw [exec_loadContent, ht.contains, if_neg hc, hparse]
  | ok root =>
    dsimp only
    rw [exec_loadDocument]
    cases hfirst : firstTaken s.contains []
        ((documentBindings (host.contentName bytes) root).map (·.path)) with
    | some taken =>
      refine shows_error hs fun t ht => ?_
      have hsame : t.contains = s.contains := funext ht.contains
      rw [exec_loadContent, hsame, if_neg hc, hparse]
      dsimp only
      rw [exec_loadDocument, hsame, hfirst]
    | none =>
      refine .ok (hs.addAll (host.heads_contentName bytes) root hfirst)
        (Host.grows_addAll hread (by simpa using hc) root) trivial fun t ht => ?_
      obtain ⟨top, htop, hpath⟩ := name_mem_documentBindings (host.contentName bytes) root
      have hadded : (s.addAll (documentBindings (host.contentName bytes) root)).contains
          (host.contentName bytes) = true :=
        (contains_addAll _ _ _).mpr (Or.inr ⟨top, htop, hpath⟩)
      rw [exec_loadContent, if_pos (ht.toExtends.contains hadded)]

theorem replays_loadFile (hs : host.Firm s) (path : String) :
    Replays host left String (fun _ _ => True) s fun _ => Attempt.loadFile host path := by
  have hread : Replays host left Bytes (fun _ bytes => host.Readable bytes) s
      fun _ => Attempt.readBytes host path := by
    unfold Attempt.readBytes
    cases h : host.storage.readBytes path with
    | ok bytes => exact replays_pure hs ⟨path, h⟩
    | error e => exact replays_throw hs _
  apply replays_bind hread
  intro bytes s' hs' _ hread
  apply replays_bind (replays_loadContent hs' hread path)
  intro _ s'' hs'' _ _
  exact replays_pure hs'' trivial

/-- What evaluation is put together of shows again. -/
theorem replays_carries (host : Host) (left : Nat) : host.footing.Carries (Replays host left) where
  pure hs ha := replays_pure hs ha
  throw e hs := replays_throw hs e
  bind _ hx hf := replays_bind hx hf
  located := replays_located
  contains name hs he hscope := replays_contains hs (he _ hscope) name fun _ _ => trivial
  loadFile path hs := replays_loadFile hs path

/-! ## Requests -/

theorem Host.Firm.start (hs : host.Firm s) {name : String} {b : Suspension}
    (hr : s.reply name = .run b) : host.Firm (s.start name) := by
  have hext := extends_start hr
  obtain ⟨active, hdisc⟩ := hs.disciplined
  refine ⟨fun {n c} hc scope hscope => ?_, fun {n v} hv c hc scope hscope => ?_, _, hdisc.start hr⟩
  · have hc' : (s.mark name .inProgress).body? n = some c := hc
    rw [body?_mark] at hc'
    exact (hs.bodies hc' scope hscope).extends hext
  · have hv' := state?_of_mark (by simp) hv
    exact (hs.kept hv' c hc scope hscope).extends hext

theorem Host.grows_mark {name : String} (h : ∀ v, s.state? name ≠ some (.evaluated v))
    (state : BindingState) : host.Grows s (s.mark name state) := by
  refine ⟨extends_mark s name h state, rfl, fun n hn hnot => ?_⟩
  rw [contains_mark, hnot] at hn
  cases hn

theorem Host.grows_start {name : String} {b : Suspension} (hr : s.reply name = .run b) :
    host.Grows s (s.start name) := by
  refine ⟨extends_start hr, rfl, fun n hn hnot => ?_⟩
  have hn' : (s.mark name .inProgress).contains n = true := hn
  rw [contains_mark, hnot] at hn'
  cases hn'

/-- The binding is in progress, and this is its body. -/
def UnderWay (s : Store Suspension) (name : String) (b : Suspension) : Prop :=
  s.find? name = some ⟨name, .inProgress, b⟩

theorem UnderWay.state (h : UnderWay s name b) : s.state? name = some .inProgress := by
  rw [state?, h, Option.map_some]

theorem Host.Firm.giveUp (hs : host.Firm s) (h : UnderWay s name b) {active : List String}
    (hdisc : Disciplined s (name :: active)) : host.Firm (s.mark name .unevaluated) := by
  have hext := extends_mark s name (by simp [h.state]) .unevaluated
  refine ⟨fun {n c} hc scope hscope => ?_, fun {n v} hv c hc scope hscope => ?_, active,
    hdisc.finish (.error (.cycle name))⟩
  · rw [body?_mark] at hc
    exact (hs.bodies hc scope hscope).extends hext
  · exact (hs.kept (state?_of_mark (by simp) hv) c hc scope hscope).extends hext

/-! ### Forcing once more -/

section

variable (h : UnderWay s name b) (ht : (s.mark name .unevaluated).Alike t)

include h ht

theorem UnderWay.find_again : t.find? name = some ⟨name, .unevaluated, b⟩ := by
  rw [ht.find, find?_mark, h]
  simp

/-- The body is run again, if a step is left. -/
theorem UnderWay.reply_again (hsteps : t.stepsLeft ≠ 0) : t.reply name = .run b :=
  reply_eq_run.mpr ⟨_, h.find_again ht, rfl, rfl, hsteps⟩

theorem UnderWay.alike_start : s.Alike (t.start name) := by
  refine ⟨fun n => ?_, ht.names, ht.limits, ht.bytes, Nat.le_trans (Nat.sub_le _ _) ht.steps⟩
  show (t.mark name .inProgress).find? n = s.find? n
  rw [find?_mark, ht.find, find?_mark, Option.map_map]
  by_cases hn : n = name
  · rw [hn, h]
    simp
  · simp [hn, Function.comp_def]

/-- When it fails again, all is as it was before. -/
theorem UnderWay.alike_giveUp (hs' : (t.start name).Alike s') :
    t.Alike (s'.mark name .unevaluated) := by
  refine ⟨fun n => ?_, hs'.names, hs'.limits, hs'.bytes, Nat.le_trans hs'.steps (Nat.sub_le _ _)⟩
  have hstart : (t.start name).find? n = (t.mark name .inProgress).find? n := rfl
  rw [find?_mark, hs'.find, hstart, find?_mark, Option.map_map]
  by_cases hn : n = name
  · rw [hn, h.find_again ht]
    simp
  · simp [hn, Function.comp_def]

end

/-- A body that was run leaves its binding in progress. -/
theorem underWay_exec (hs : host.Firm s) (hr : s.reply name = .run b)
    (p : Program Suspension Nat (Except EvalError Value)) :
    UnderWay ((s.start name).exec (behaviour host) p).2 name b ∧
      ∃ active, Disciplined ((s.start name).exec (behaviour host) p).2 (name :: active) := by
  obtain ⟨active, hdisc⟩ := hs.disciplined
  obtain ⟨hend, hext⟩ := disciplined_exec (behaviour host) p (hdisc.start hr)
  refine ⟨?_, active, hend⟩
  obtain ⟨b0, hfind, _, hbody, _⟩ := reply_eq_run.mp hr
  have hstart : (s.start name).find? name = some { b0 with state := .inProgress } := by
    show (s.mark name .inProgress).find? name = _
    rw [find?_mark, hfind, Option.map_some, if_pos rfl]
  obtain ⟨b1, hb1, hbody1⟩ := hext.body name _ hstart
  have hname := find?_name hb1
  have hstate := (hend.mem_iff name).mpr List.mem_cons_self
  rw [state?, hb1, Option.map_some, Option.some.injEq] at hstate
  rw [UnderWay, hb1, ← hname, ← hstate, ← hbody, ← hbody1]

/-- In a store where the forcing has begun, the body fails, or its result does not fit, like an
attempt that failed before. -/
def BodyFailsAgain (host : Host) (left : Nat) (name : String) (b : Suspension) (e : EvalError)
    (taken : Nat) (t : Store Suspension) : Prop :=
  ∃ r t', t.exec (behaviour host) (behaviour host b left) = (r, t') ∧
    ∃ e', t'.finish name r = (.error e', t'.mark name .unevaluated) ∧
      FailsAgain e taken t ((.error e', t') : Except EvalError Value × Store Suspension)

/-- A forcing fails again if its body does, or for want of a step. -/
theorem fails_again_value {e : EvalError} {taken : Nat} (h : UnderWay s name b)
    (ht : (s.mark name .unevaluated).Alike t)
    (hagain : BodyFailsAgain host left name b e taken (t.start name)) :
    FailsAgain e (taken + 1) t (t.value (behaviour host) left name) := by
  by_cases hsteps : t.stepsLeft = 0
  · have hstate : t.state? name = some .unevaluated := by
      rw [state?, h.find_again ht, Option.map_some]
    rw [value_of_now _ (reply_unevaluated hstate hsteps)]
    exact .late (.refl t) (by omega)
  · obtain ⟨r, t', hexec, e', hfinish, hfails⟩ := hagain
    have hstart : (t.start name).stepsLeft = t.stepsLeft - 1 := rfl
    rw [value_of_run _ (h.reply_again ht hsteps), hexec]
    dsimp only
    rw [hfinish]
    cases hfails with
    | same alike steps =>
      have hmark : (t'.mark name .unevaluated).stepsLeft = t'.stepsLeft := rfl
      exact .same (h.alike_giveUp ht alike) (by omega)
    | late alike steps => exact .late (h.alike_giveUp ht alike) (by omega)

/-- What a forcing leaves when it fails, if it fails again. -/
theorem shows_giveUp {good : Store Suspension → Value → Prop} (hr : s.reply name = .run b)
    {e : EvalError} (h : UnderWay s' name b) {active : List String}
    (hdisc : Disciplined s' (name :: active)) (hsteps : s'.stepsLeft ≤ (s.start name).stepsLeft)
    (firm : host.Firm s') (grows : host.Grows (s.start name) s')
    (hagain : ∀ t, (s'.mark name .unevaluated).Alike t →
      BodyFailsAgain host left name b e ((s.start name).stepsLeft - s'.stepsLeft) (t.start name)) :
    Shows host good s (Attempt.value left name) (.error e, s'.mark name .unevaluated) := by
  have hmark : host.Grows s' (s'.mark name .unevaluated) := Host.grows_mark (by simp [h.state]) _
  refine .error (firm.giveUp h hdisc) (((Host.grows_start hr).trans grows).trans hmark)
    fun t ht => ?_
  obtain ⟨_, _, _, _, hne⟩ := reply_eq_run.mp hr
  have hstart : (s.start name).stepsLeft = s.stepsLeft - 1 := rfl
  have htaken : (s.start name).stepsLeft - s'.stepsLeft + 1 ≤ s.stepsLeft - s'.stepsLeft := by omega
  exact (fails_again_value h ht (hagain t ht)).mono htaken

/-- What a forcing leaves when it keeps a value. -/
theorem Host.Firm.keep (hs : host.Firm s) (h : UnderWay s name b) {active : List String}
    (hdisc : Disciplined s (name :: active)) {v : Value} {kept : Store Suspension}
    (hfinish : s.finish name (.ok v) = (.ok v, kept)) (hv : host.footing.Sound s v) :
    host.Firm kept ∧ host.Grows s kept ∧ kept.state? name = some (.evaluated v) := by
  have hext := extends_finish h.state (.ok v)
  have hbody := body?_finish s name (.ok v)
  have hcontains : ∀ n, kept.contains n = s.contains n := by
    intro n
    rw [hfinish] at hbody
    rw [contains_eq_body?, hbody, contains_eq_body?]
  have hdisc' := hdisc.finish (.ok v)
  have hlimits : kept.limits = s.limits := by
    rcases finish_cases s name (.ok v) with ⟨e, hf⟩ | ⟨w, _, _, hf⟩
    · rw [hf] at hfinish
      cases hfinish
    · rw [hf] at hfinish
      rw [← (Prod.mk.inj hfinish).2]
      rfl
  rw [hfinish] at hext hbody hdisc'
  have hstate : kept.state? name = some (.evaluated v) := by
    rw [state?_finish_ok hfinish, if_pos rfl, h.state, Option.map_some]
  refine ⟨⟨fun {n c} hc scope hscope => ?_, fun {n w} hw c hc scope hscope => ?_, active, hdisc'⟩,
    ⟨hext, hlimits, fun n hn hnot => ?_⟩, hstate⟩
  · exact (hs.bodies ((hbody n).symm.trans hc) scope hscope).extends hext
  · by_cases hn : n = name
    · rw [hn, hstate, Option.some.injEq, BindingState.evaluated.injEq] at hw
      exact (hv c (hw ▸ hc) scope hscope).extends hext
    · rw [state?_finish_ok hfinish, if_neg hn] at hw
      exact (hs.kept hw c hc scope hscope).extends hext
  · rw [hcontains, hnot] at hn
    cases hn

/-- A forcing shows again if its body does. -/
theorem shows_forcing (hs : host.Firm s) (hr : s.reply name = .run b)
    (hbody : Shows host host.footing.Sound (s.start name) (ExceptT.mk (behaviour host b left))
      ((s.start name).exec (behaviour host) (behaviour host b left))) :
    Shows host host.footing.Sound s (Attempt.value left name)
      (s.value (behaviour host) left name) := by
  have hway := underWay_exec hs hr (behaviour host b left)
  have hsteps := stepsLeft_run_le (stepsLeft_value_le (behaviour host)) (behaviour host b left)
    (s.start name)
  change ((s.start name).exec (behaviour host) (behaviour host b left)).2.stepsLeft ≤ _ at hsteps
  rw [value_of_run _ hr]
  generalize (s.start name).exec (behaviour host) (behaviour host b left) = out
    at hbody hway hsteps ⊢
  obtain ⟨hway, active, hdisc⟩ := hway
  cases hbody with
  | @error e s2 firm grows again =>
    apply shows_giveUp hr hway hdisc hsteps firm grows
    intro t ht
    have hfails := again (t.start name) (hway.alike_start ht)
    unfold BodyFailsAgain
    unfold ExceptT.run ExceptT.mk at hfails
    generalize (t.start name).exec (behaviour host) (behaviour host b left) = out at hfails ⊢
    cases hfails with
    | same alike steps => exact ⟨_, _, rfl, _, rfl, .same alike steps⟩
    | late alike steps => exact ⟨_, _, rfl, _, rfl, .late alike steps⟩
  | @ok v s2 firm grows hv again =>
    dsimp only
    by_cases hroom : s2.bytesLeft < v.cost
    · have hfinish : s2.finish name (.ok v) =
          (.error (.spaceLimit v.cost s2.bytesLeft), s2.mark name .unevaluated) := by
        simp [finish, hroom]
      rw [hfinish]
      apply shows_giveUp hr hway hdisc hsteps firm grows
      intro t ht
      have halike := hway.alike_start ht
      have hfinish' : (t.start name).finish name (.ok v) =
          (.error (.spaceLimit v.cost s2.bytesLeft), (t.start name).mark name .unevaluated) := by
        simp [finish, halike.bytes, hroom]
      exact ⟨_, _, again _ halike.grows, _, hfinish', .same (.refl _) (Nat.le_add_right _ _)⟩
    · obtain ⟨kept, hfinish⟩ : ∃ kept, s2.finish name (.ok v) = (.ok v, kept) :=
        ⟨_, by simp [finish, hroom]; rfl⟩
      obtain ⟨hkept, hgrows, hstate⟩ := firm.keep hway hdisc hfinish hv
      rw [hfinish]
      refine .ok hkept (((Host.grows_start hr).trans grows).trans hgrows) ?_ fun t ht => ?_
      · exact Footing.Upholds.later hv hgrows
      · exact value_of_now _ (reply_evaluated (ht.toExtends.value name v hstate)) left

/-- A request shows again if the body does that it may run. -/
theorem replays_value (hs : host.Firm s) (name : String)
    (hbody : ∀ b, s.reply name = .run b →
      Shows host host.footing.Sound (s.start name) (ExceptT.mk (behaviour host b left))
        ((s.start name).exec (behaviour host) (behaviour host b left))) :
    Replays host left Value host.footing.Sound s fun j => Attempt.value j name := by
  show Shows host _ s (Attempt.value left name) (s.value (behaviour host) left name)
  cases hf : s.find? name with
  | none =>
    rw [value_of_now _ (reply_unknown hf)]
    exact shows_error hs fun t ht => value_of_now _ (reply_unknown ((ht.find name).trans hf)) left
  | some c =>
    have hstate : s.state? name = some c.state := by rw [state?, hf, Option.map_some]
    cases hc : c.state with
    | evaluated v =>
      rw [hc] at hstate
      rw [value_of_now _ (reply_evaluated hstate)]
      refine .ok hs (.refl s) (fun c hmem => hs.kept hstate c hmem) fun t ht => ?_
      exact value_of_now _ (reply_evaluated (ht.toExtends.value name v hstate)) left
    | inProgress =>
      rw [hc] at hstate
      rw [value_of_now _ (reply_inProgress hstate)]
      refine shows_error hs fun t ht => ?_
      exact value_of_now _ (reply_inProgress ((ht.state name).trans hstate)) left
    | unevaluated =>
      by_cases hsteps : s.stepsLeft = 0
      · rw [hc] at hstate
        rw [value_of_now _ (reply_unevaluated hstate hsteps)]
        refine shows_error hs fun t ht => ?_
        have hnone : t.stepsLeft = 0 := Nat.le_zero.mp (hsteps ▸ ht.steps)
        rw [← ht.limits]
        exact value_of_now _ (reply_unevaluated ((ht.state name).trans hstate) hnone) left
      · have hr : s.reply name = .run c.body := reply_eq_run.mpr ⟨c, hf, hc, rfl, hsteps⟩
        exact shows_forcing hs hr (hbody c.body hr)

/-! ## All levels -/

/-- Bodies are in closed scopes. -/
theorem Host.Firm.opens (hs : host.Firm s) {n : String} (hb : s.body? n = some b) :
    host.footing.Opens s b := by
  unfold Footing.Opens
  cases b.task with
  | expression e => exact hs.bodies hb
  | members members => exact ⟨fun _ _ => hs.bodies hb, fun _ _ _ => trivial⟩

/-- Evaluation shows again, at every level. -/
theorem replays_at (host : Host) (left : Nat) : host.footing.CarriesAt (Replays host left) := by
  induction left with
  | zero =>
    refine ⟨replays_carries host 0, fun hs _ => ?_, fun _ hs _ => shows_error hs fun _ _ => rfl⟩
    exact replays_value hs _ fun b hr => shows_error (hs.start hr) fun _ _ => rfl
  | succ left ih =>
    refine ⟨replays_carries host (left + 1), fun {s path} hs _ => ?_,
      fun {s frame e} count hs hready => ?_⟩
    · refine replays_value hs _ fun b hr => ?_
      have hbody : (s.start path).body? path = some b := by
        show (s.mark path .inProgress).body? path = some b
        rw [body?_mark, body?_of_reply hr]
      exact ih.task (hs.start hr) ((hs.start hr).opens hbody)
    · show Shows host _ s (evaluator host left frame e count)
        (s.exec (behaviour host) (evaluator host left frame e count).run)
      rw [evaluator_eq]
      exact ih.eval frame e hs hready count

end LazyConfig
