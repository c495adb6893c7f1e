-- A store agrees with its library if every value it keeps is what the binding means. Running a
-- computation on such a store is faithful: the store still agrees, and the result is what the
-- computation settles to, whatever was kept before, unless a quota ran out.
-- Main statements: faithful computations can be put one after another, and including a file is
-- one.
import LazyConfig.Proofs.Document.Meaning
import LazyConfig.Proofs.Value.Scopes

namespace LazyConfig.Library

open Store

variable {L : Library} {s s' : Store Suspension} {under : List String} {α β : Type}

/-! ## Stores that agree -/

/-- All scopes that a value refers to are settled. -/
def Grounded (L : Library) (s : Store Suspension) (v : Value) : Prop := L.SettledAll s v.scopes

/-- No value is kept for any of the bindings. -/
def Unkept (s : Store Suspension) (names : List String) : Prop :=
  ∀ n ∈ names, ∀ v, s.state? n ≠ some (.evaluated v)

theorem Unkept.earlier {names : List String} (h : Unkept s' names) (hext : s.Extends s') :
    Unkept s names := fun n hn v hv => h n hn v (hext.value n v hv)

theorem unkept_of_disciplined (h : Disciplined s under) : Unkept s under := by
  intro n hn v hv
  rw [(h.mem_iff n).mpr hn] at hv
  cases hv

/-- The store holds a part of the library, and its values are what their bindings mean, asked for
by any bindings without values. -/
structure Agrees (L : Library) (s : Store Suspension) : Prop where
  holds : L.Holds s
  grounded : ∀ {n v}, s.state? n = some (.evaluated v) → L.Grounded s v
  means : ∀ {n v}, s.state? n = some (.evaluated v) → ∀ names, Unkept s names →
    L.Means names n (.ok v)

/-- A later store agrees if the values that it has in addition are what they should be. -/
theorem Agrees.later (h : L.Agrees s) (hext : s.Extends s') (hholds : L.Holds s')
    (hnew : ∀ {n v}, s'.state? n = some (.evaluated v) → s.state? n = some (.evaluated v) ∨
      (L.Grounded s' v ∧ ∀ names, Unkept s' names → L.Means names n (.ok v))) :
    L.Agrees s' := by
  refine ⟨hholds, fun hv => ?_, fun hv names hnames => ?_⟩
  · rcases hnew hv with hold | ⟨hgrounded, _⟩
    · exact SettledAll.extends (h.grounded hold) hext
    · exact hgrounded
  · rcases hnew hv with hold | ⟨_, hmeans⟩
    · exact h.means hold names (hnames.earlier hext)
    · exact hmeans names hnames

theorem Agrees.start (h : L.Agrees s) {name : String} {b : Suspension}
    (hr : s.reply name = .run b) : L.Agrees (s.start name) := by
  apply h.later (extends_start hr) (h.holds.congr (body?_mark s name .inProgress))
  intro n v hv
  exact Or.inl (state?_of_mark (by simp) hv)

theorem Agrees.giveUp (h : L.Agrees s) {name : String} (hp : s.state? name = some .inProgress) :
    L.Agrees (s.mark name .unevaluated) := by
  have hext := extends_mark s name (by simp [hp]) .unevaluated
  apply h.later hext (h.holds.congr (body?_mark s name .unevaluated))
  intro n v hv
  exact Or.inl (state?_of_mark (by simp) hv)

/-! ## Faithful computations -/

/-- What an outcome tells about a computation at all levels: a result is what it settles to, asked
for by any bindings without values, and so is an error, asked for as it was. -/
inductive Tells (L : Library) (good : Store Suspension → α → Prop) (under : List String)
    (x : Nat → Attempt α) : Except EvalError α × Store Suspension → Prop
  | ok {a s} (agrees : L.Agrees s) (hgood : good s a)
      (settles : ∀ names, Unkept s names → L.Settles names x (.ok a)) :
      Tells L good under x (.ok a, s)
  | error {e s} (agrees : L.Agrees s) (settles : L.Settles under x (.error e)) :
      Tells L good under x (.error e, s)
  /-- The error of a quota tells nothing. -/
  | resource {e s} (agrees : L.Agrees s) (h : e.isResource = true) :
      Tells L good under x (.error e, s)

theorem Tells.agrees {good : Store Suspension → α → Prop} {x : Nat → Attempt α}
    {out : Except EvalError α × Store Suspension} (h : L.Tells good under x out) :
    L.Agrees out.2 := by
  cases h <;> assumption

/-- Run with `left` levels on the store, the computation tells what it settles to. -/
def Faithful (L : Library) (good : Store Suspension → α → Prop) (left : Nat)
    (s : Store Suspension) (under : List String) (x : Nat → Attempt α) : Prop :=
  L.Tells good under x (s.exec (behaviour L.host) (x left).run)

variable {good : Store Suspension → α → Prop} {good' : Store Suspension → β → Prop} {left : Nat}

theorem Faithful.pure (hs : L.Agrees s) {a : α} (ha : good s a) :
    L.Faithful good left s under fun _ => Pure.pure a :=
  .ok hs ha fun _ _ => .pure a

theorem Faithful.throw (hs : L.Agrees s) (e : EvalError) :
    L.Faithful good left s under fun _ => (MonadExcept.throw e : Attempt α) :=
  .error hs (.throw e)

theorem Faithful.bind {x : Nat → Attempt α} {f : Nat → α → Attempt β}
    (hs : Disciplined s under) (hx : L.Faithful good left s under x)
    (hf : ∀ a s', L.Agrees s' → Disciplined s' under → s.Extends s' → good s' a →
      L.Faithful good' left s' under fun j => f j a) :
    L.Faithful good' left s under fun j => x j >>= f j := by
  have hmiddle := disciplined_exec (behaviour L.host) (x left).run hs
  unfold Faithful at hx ⊢
  rw [exec_run_bind]
  generalize s.exec (behaviour L.host) (x left).run = out at hx hmiddle ⊢
  cases hx with
  | error hagrees hsettles => exact .error hagrees (hsettles.bind_error f)
  | resource hagrees h => exact .resource hagrees h
  | @ok a s' hagrees hgood hsettles =>
    obtain ⟨hs', hext⟩ := hmiddle
    have hend := disciplined_exec (behaviour L.host) (f left a).run hs'
    have hfa := hf a s' hagrees hs' hext hgood
    unfold Faithful at hfa
    show L.Tells good' under _ (s'.exec (behaviour L.host) (f left a).run)
    generalize s'.exec (behaviour L.host) (f left a).run = out at hfa hend ⊢
    cases hfa with
    | error hagrees' hsettles' =>
      exact .error hagrees' ((hsettles under (unkept_of_disciplined hs')).bind hsettles')
    | resource hagrees' h => exact .resource hagrees' h
    | ok hagrees' hgood' hsettles' =>
      refine .ok hagrees' hgood' fun names hnames => ?_
      exact (hsettles names (hnames.earlier hend.2)).bind (hsettles' names hnames)

theorem Faithful.adapt {x : Nat → Attempt α} (hx : L.Faithful good left s under x)
    {place : EvalError → EvalError} (hplace : ∀ e, (place e).isResource = e.isResource) :
    L.Faithful good left s under fun j => ExceptT.adapt place (x j) := by
  unfold Faithful at hx ⊢
  rw [exec_adapt]
  generalize s.exec (behaviour L.host) (x left).run = out at hx ⊢
  cases hx with
  | error hagrees hsettles => exact .error hagrees (hsettles.adapt place)
  | resource hagrees h => exact .resource hagrees ((hplace _).trans h)
  | ok hagrees hgood hsettles =>
    exact .ok hagrees hgood fun names hnames => (hsettles names hnames).adapt place

/-- Asking for a name in a settled scope. -/
theorem faithful_contains (hs : L.Agrees s) {scope : String} (hscope : L.Settled s scope)
    (name : String) :
    L.Faithful (fun s found => found = true → s.contains (childPath scope name) = true) left s
      under fun _ => Attempt.contains (childPath scope name) := by
  refine Tells.ok hs id fun names _ => .of_reading fun k => ?_
  rw [hscope.contains_eq hs.holds]
  rfl

/-! ## Files -/

variable {bytes : Bytes} {root : Expr}

theorem Holds.addAll (h : L.Holds s) (hfile : L.host.Loadable bytes root) :
    L.Holds (s.addAll (L.host.fileBindings bytes root)) := by
  have hext := extends_addAll s (L.host.fileBindings bytes root)
  refine ⟨?_, fun hn => hext.contains (h.loaded hn), ?_⟩
  · intro n b hb
    rw [body?_addAll, Option.or_eq_some_iff] at hb
    rcases hb with hb | ⟨_, hb⟩
    · exact h.offered hb
    · have hpath : b.path = n := by simpa using List.find?_some hb
      exact offer?_eq_some.mpr ⟨.file hfile (List.mem_of_find?_eq_some hb), hpath⟩
  · intro bytes' root' hfile' b hb b' hb' hc
    rcases (contains_addAll _ _ _).mp hc with hc | ⟨c, hc, hpath⟩
    · exact hext.contains (h.whole hfile' b hb b' hb' hc)
    · have hbelow := (within_documentBindings hb).path
      have hbelow' := (within_documentBindings hc).path
      rw [hpath] at hbelow'
      have hbytes := L.collisionFree.bytes_eq_of_below hfile'.readable hfile.readable hbelow hbelow'
      subst hbytes
      obtain rfl := hfile.root_eq hfile'.parsed
      exact (contains_addAll _ _ _).mpr (Or.inr ⟨b', hb', rfl⟩)

theorem Agrees.addAll (h : L.Agrees s) (hfile : L.host.Loadable bytes root) :
    L.Agrees (s.addAll (L.host.fileBindings bytes root)) := by
  apply h.later (extends_addAll s _) (h.holds.addAll hfile)
  intro n v hv
  rcases state?_addAll hv with hold | hnew
  · exact Or.inl hold
  · cases hnew

/-- What is loaded before its name is bound is not bound at all. -/
theorem Holds.contains_eq_false (h : L.Holds s) (hfile : L.host.Loadable bytes root)
    (hname : ¬ s.contains (L.host.contentName bytes) = true) :
    ∀ b ∈ L.host.fileBindings bytes root, s.contains b.path = false := by
  intro b hb
  obtain ⟨top, htop, hpath⟩ := name_mem_documentBindings (L.host.contentName bytes) root
  rw [← Bool.not_eq_true]
  intro hc
  exact hname (hpath ▸ h.whole hfile b hb top htop hc)

theorem bound_eq_false (hread : L.host.Readable bytes) (hfile : ¬ L.host.Loadable bytes root)
    (hparse : parse L.host.maxParseDepth bytes = .ok root) {name : String}
    (hbelow : Below (L.host.contentName bytes) name) : L.bound name = false := by
  rw [← Bool.not_eq_true, bound_iff]
  rintro ⟨b, hb, hpath⟩
  obtain ⟨root', hfile', _⟩ := hb.of_below hread (hpath ▸ hbelow)
  obtain rfl := hfile'.root_eq hparse
  exact hfile hfile'

/-- Contents with a path twice are refused for that path, whatever else is taken. -/
theorem exists_firstTaken {taken : String → Bool} (hread : L.host.Readable bytes)
    (hfile : ¬ L.host.Loadable bytes root)
    (hparse : parse L.host.maxParseDepth bytes = .ok root)
    (htaken : ∀ p ∈ (L.host.fileBindings bytes root).map (·.path), taken p = true →
      L.bound p = true) :
    ∃ p, firstTaken taken [] ((L.host.fileBindings bytes root).map (·.path)) = some p ∧
      firstTaken L.bound [] ((L.host.fileBindings bytes root).map (·.path)) = some p := by
  have hunbound : ∀ p ∈ (L.host.fileBindings bytes root).map (·.path), L.bound p = false := by
    intro p hp
    obtain ⟨b, hb, rfl⟩ := List.mem_map.mp hp
    exact bound_eq_false hread hfile hparse (within_documentBindings hb).path
  have hsame : ∀ p ∈ (L.host.fileBindings bytes root).map (·.path),
      taken p = L.bound p := by
    intro p hp
    rw [hunbound p hp, ← Bool.not_eq_true]
    intro hc
    exact absurd (htaken p hp hc) (by simp [hunbound p hp])
  rw [firstTaken_congr hsame]
  cases h : firstTaken L.bound [] ((L.host.fileBindings bytes root).map (·.path)) with
  | some p => exact ⟨p, rfl, rfl⟩
  | none => exact absurd ⟨hread, hparse, (firstTaken_eq_none.mp h).1⟩ hfile

/-- A document in a file is loaded, or was before, or is refused, for the same reason at all
times. -/
theorem faithful_loadContent (hs : L.Agrees s) (hread : L.host.Readable bytes) (path : String) :
    L.Faithful (fun s _ => s.contains (L.host.contentName bytes) = true) left s under
      fun _ => Attempt.loadContent L.host (L.host.contentName bytes) path bytes := by
  unfold Faithful
  rw [exec_loadContent]
  by_cases hc : s.contains (L.host.contentName bytes) = true
  · rw [if_pos hc]
    refine .ok hs hc fun names _ => .of_reading fun k => ?_
    rw [reading_eq, given_loadContent, if_pos (hs.holds.bound hc)]
  rw [if_neg hc]
  -- What is bound below the name of a file is in the file, so the name is bound if and only if
  -- the document can be loaded.
  have hname : L.bound (L.host.contentName bytes) = true →
      ∃ root, L.host.Loadable bytes root := by
    rw [bound_iff]
    rintro ⟨b, hb, hpath⟩
    obtain ⟨root, hfile, _⟩ := hb.of_below hread (.inl hpath)
    exact ⟨root, hfile⟩
  cases hparse : parse L.host.maxParseDepth bytes with
  | error e =>
    refine .error hs (.of_reading fun k => ?_)
    rw [reading_eq, given_loadContent, if_neg, hparse]
    intro hbound
    obtain ⟨root, hfile⟩ := hname hbound
    rw [hfile.parsed] at hparse
    cases hparse
  | ok root =>
    show L.Tells _ under _ (s.exec (behaviour L.host) (Attempt.loadDocument _ root).run)
    rw [exec_loadDocument]
    by_cases hfile : L.host.Loadable bytes root
    · have hfree := hs.holds.contains_eq_false hfile hc
      have hfirst : firstTaken s.contains []
          ((documentBindings (L.host.contentName bytes) root).map (·.path)) = none := by
        refine firstTaken_eq_none.mpr ⟨hfile.nodup, fun p hp => ?_⟩
        obtain ⟨b, hb, rfl⟩ := List.mem_map.mp hp
        exact ⟨hfree b hb, List.not_mem_nil⟩
      rw [hfirst]
      obtain ⟨top, htop, hpath⟩ := name_mem_documentBindings (L.host.contentName bytes) root
      have hadded : (s.addAll (documentBindings (L.host.contentName bytes) root)).contains
          (L.host.contentName bytes) = true :=
        (contains_addAll _ _ _).mpr (Or.inr ⟨top, htop, hpath⟩)
      refine .ok (hs.addAll hfile) hadded fun names _ => .of_reading fun k => ?_
      rw [reading_eq, given_loadContent, if_pos (bound_iff.mpr ⟨top, .file hfile htop, hpath⟩)]
    · obtain ⟨p, hstore, hlibrary⟩ :=
        exists_firstTaken hread hfile hparse fun _ _ => hs.holds.bound
      unfold Host.fileBindings at hstore hlibrary
      rw [hstore]
      refine .error hs (.of_reading fun k => ?_)
      rw [reading_eq, given_loadContent, if_neg, hparse]
      · show L.given _ (Attempt.loadDocument _ root) = _
        rw [Attempt.loadDocument, given_bind, given_checkPaths, hlibrary]
      · intro hbound
        obtain ⟨root', hfile'⟩ := hname hbound
        obtain rfl := hfile'.root_eq hparse
        exact hfile hfile'

theorem faithful_readBytes (hs : L.Agrees s) (path : String) :
    L.Faithful (fun _ bytes => L.host.Readable bytes) left s under
      fun _ => Attempt.readBytes L.host path := by
  unfold Attempt.readBytes
  cases h : L.host.storage.readBytes path with
  | ok bytes => exact .pure hs ⟨path, h⟩
  | error e => exact .throw hs _

theorem faithful_loadFile (hs : L.Agrees s) (hdisc : Disciplined s under) (path : String) :
    L.Faithful (fun s name => s.contains name = true) left s under
      fun _ => Attempt.loadFile L.host path := by
  apply Faithful.bind hdisc (faithful_readBytes hs path)
  intro bytes s' hs' hdisc' _ hread
  apply Faithful.bind hdisc' (faithful_loadContent hs' hread path)
  intro _ s'' hs'' _ _ hname
  exact .pure hs'' hname

end LazyConfig.Library
