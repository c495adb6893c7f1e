-- What loading does to a session. All paths that a document declares are added, or nothing happens
-- at all: they are looked at one by one before the first of them is defined.
-- Main statement: when a source or a file is loaded, what is added then, and which path is at fault
-- otherwise.
import LazyConfig.Proofs.Document.Declared
import LazyConfig.Proofs.Document.Loading
import LazyConfig.Session

namespace LazyConfig

open Store

/-! ## Paths that are free -/

/-- Of the paths, the first one that is bound already or repeats one before it. -/
def Store.IsFirstTaken (s : Store Suspension) (paths : List String) (path : String) : Prop :=
  ∃ before after, paths = before ++ path :: after ∧ before.Nodup ∧
    (∀ other ∈ before, s.contains other = false) ∧ (s.contains path = true ∨ path ∈ before)

/-- What comes before the first taken path is free, and different from all that was there. -/
theorem firstTaken_eq_some {taken : String → Bool} {earlier paths : List String} {path : String} :
    firstTaken taken earlier paths = some path ↔
      ∃ before after, paths = before ++ path :: after ∧ before.Nodup ∧
        (∀ other ∈ before, taken other = false ∧ other ∉ earlier) ∧
        (taken path = true ∨ path ∈ earlier ∨ path ∈ before) := by
  induction paths generalizing earlier with
  | nil => simp [firstTaken]
  | cons first later ih =>
    unfold firstTaken
    by_cases h : (taken first || earlier.contains first) = true
    · rw [if_pos h, Option.some.injEq]
      rw [Bool.or_eq_true, List.contains_iff_mem] at h
      constructor
      · rintro rfl
        refine ⟨[], later, rfl, List.nodup_nil, List.forall_mem_nil _, ?_⟩
        exact h.imp_right Or.inl
      · rintro ⟨before, after, hpaths, _, hfree, _⟩
        cases before with
        | nil => exact (List.cons.inj hpaths).1
        | cons other before =>
          obtain ⟨rfl, _⟩ := List.cons.inj hpaths
          obtain ⟨htaken, hnot⟩ := hfree first List.mem_cons_self
          rcases h with h | h
          · simp [h] at htaken
          · exact absurd h hnot
    · rw [if_neg h, ih]
      simp only [Bool.or_eq_true, List.contains_iff_mem, not_or, Bool.not_eq_true] at h
      constructor
      · rintro ⟨before, after, rfl, hnodup, hfree, htaken⟩
        have hnot : first ∉ before := fun hmem => (hfree first hmem).2 List.mem_cons_self
        refine ⟨first :: before, after, rfl, List.nodup_cons.mpr ⟨hnot, hnodup⟩, ?_, ?_⟩
        · refine List.forall_mem_cons.mpr ⟨h, fun other hother => ?_⟩
          obtain ⟨hfalse, hmem⟩ := hfree other hother
          exact ⟨hfalse, fun hearlier => hmem (List.mem_cons_of_mem _ hearlier)⟩
        · simp only [List.mem_cons] at htaken ⊢
          tauto
      · rintro ⟨before, after, hpaths, hnodup, hfree, htaken⟩
        cases before with
        | nil =>
          obtain ⟨rfl, _⟩ := List.cons.inj hpaths
          simp [h] at htaken
        | cons other before =>
          obtain ⟨rfl, hlater⟩ := List.cons.inj hpaths
          obtain ⟨hnot, hnodup⟩ := List.nodup_cons.mp hnodup
          refine ⟨before, after, hlater, hnodup, fun other hother => ?_, ?_⟩
          · obtain ⟨hfalse, hmem⟩ := hfree other (List.mem_cons_of_mem _ hother)
            refine ⟨hfalse, fun hearlier => ?_⟩
            rcases List.mem_cons.mp hearlier with rfl | hearlier
            · exact hnot hother
            · exact hmem hearlier
          · simp only [List.mem_cons] at htaken ⊢
            tauto

theorem isFirstTaken_iff {s : Store Suspension} {paths : List String} {path : String} :
    s.IsFirstTaken paths path ↔ firstTaken s.contains [] paths = some path := by
  simp [firstTaken_eq_some, IsFirstTaken]

/-! ## Paths that are added -/

/-- The second store is the first one with bindings of the paths after all others, none of them
evaluated, and nothing is used up. -/
structure Store.Adds (s s' : Store Suspension) (paths : List String) : Prop where
  names : s'.names = s.names ++ paths
  added : ∀ path ∈ paths, s'.state? path = some .unevaluated
  others : ∀ path, path ∉ paths → s'.find? path = s.find? path
  limits : s'.limits = s.limits
  steps : s'.stepsLeft = s.stepsLeft
  bytes : s'.bytesLeft = s.bytesLeft

theorem adds_addAll {s : Store Suspension} {bindings : List Suspension}
    (hfree : ∀ b ∈ bindings, s.contains b.path = false) :
    s.Adds (s.addAll bindings) (bindings.map (·.path)) := by
  refine ⟨rfl, fun path hpath => ?_, fun path hpath => ?_, rfl, rfl, rfl⟩
  · obtain ⟨b, hb, rfl⟩ := List.mem_map.mp hpath
    have hold : s.find? b.path = none := by simpa [contains_eq] using hfree b hb
    have hnew : (bindings.find? fun c => c.path = b.path).isSome := by
      rw [List.find?_isSome]
      exact ⟨b, hb, by simp⟩
    obtain ⟨c, hc⟩ := Option.isSome_iff_exists.mp hnew
    rw [state?, find?_addAll, hold, hc]
    rfl
  · have hnone : (bindings.find? fun c => c.path = path) = none := by
      rw [List.find?_eq_none]
      intro b hb heq
      exact hpath (of_decide_eq_true heq ▸ List.mem_map_of_mem hb)
    rw [find?_addAll, hnone, Option.map_none, Option.or_none]

/-! ## Loading -/

/-- How a session ends up when `bytes` are to be loaded under a name: as it was, if they are no
document or a path of the document is taken, which is refused by its name, and else with all paths
of the document added. -/
structure LoadsWhole {α : Type} (s : Session) (name : String) (bytes : Bytes) (answer : α)
    (refusal : ParseError → Failure) (out : Except Failure α × Session) : Prop where
  fails : ∀ f, out.1 = .error f → out.2 = s ∧
    ((∃ e, parse s.host.maxParseDepth bytes = .error e ∧ f = refusal e) ∨
      ∃ path, f = .evaluation (.duplicateBinding path))
  loads : ∀ a, out.1 = .ok a → a = answer ∧ ∃ root,
    parse s.host.maxParseDepth bytes = .ok root ∧ out.2.host = s.host ∧
      s.store.Adds out.2.store (root.declared name)
  unparsed : ∀ e, parse s.host.maxParseDepth bytes = .error e → out.1 = .error (refusal e)
  duplicate : ∀ path, out.1 = .error (.evaluation (.duplicateBinding path)) ↔ ∃ root,
    parse s.host.maxParseDepth bytes = .ok root ∧ s.store.IsFirstTaken (root.declared name) path

variable {s : Session} {name : String} {bytes : Bytes} {α : Type} {answer : α}
variable {refusal : ParseError → Failure}

theorem loadsWhole_unparsed {e : ParseError} (h : parse s.host.maxParseDepth bytes = .error e)
    (hrefusal : ∀ path, refusal e ≠ .evaluation (.duplicateBinding path)) :
    LoadsWhole s name bytes answer refusal (.error (refusal e), s) := by
  refine ⟨fun f hf => ?_, nofun, fun e' he' => ?_, fun path => ?_⟩
  · rw [Except.error.injEq] at hf
    exact ⟨rfl, Or.inl ⟨e, h, hf.symm⟩⟩
  · rw [h, Except.error.injEq] at he'
    rw [he']
  · refine iff_of_false (fun hf => hrefusal path (Except.error.inj hf)) ?_
    rintro ⟨root, hroot, _⟩
    rw [h] at hroot
    cases hroot

/-- The outcome of loading a document into the store is that of the session. -/
theorem loadsWhole_parsed {root : Expr} (h : parse s.host.maxParseDepth bytes = .ok root)
    {out : Except EvalError Unit × Store Suspension}
    (hout : s.store.exec (behaviour s.host) (Attempt.loadDocument name root).run = out) :
    LoadsWhole s name bytes answer refusal
      ((out.1.map fun _ => answer).mapError .evaluation, { s with store := out.2 }) := by
  have hroot : ∀ {root'}, parse s.host.maxParseDepth bytes = .ok root' → root' = root := by
    intro root' hroot'
    rw [h, Except.ok.injEq] at hroot'
    exact hroot'.symm
  have hunparsed : ∀ e, parse s.host.maxParseDepth bytes ≠ .error e := by simp [h]
  rw [exec_loadDocument, map_path_documentBindings] at hout
  cases hfirst : firstTaken s.store.contains [] (root.declared name) with
  | some path =>
    rw [hfirst] at hout
    subst hout
    refine ⟨fun f hf => ⟨rfl, Or.inr ⟨path, (Except.error.inj hf).symm⟩⟩, nofun,
      fun e he => absurd he (hunparsed e), fun other => ?_⟩
    constructor
    · intro hother
      cases hother
      exact ⟨root, h, isFirstTaken_iff.mpr hfirst⟩
    · rintro ⟨root', hroot', hother⟩
      rw [hroot hroot', isFirstTaken_iff, hfirst, Option.some.injEq] at hother
      rw [hother]
      rfl
  | none =>
    rw [hfirst] at hout
    subst hout
    obtain ⟨_, hfree⟩ := firstTaken_eq_none.mp hfirst
    have hadds : s.store.Adds (s.store.addAll (documentBindings name root))
        ((documentBindings name root).map (·.path)) := adds_addAll fun b hb =>
      (hfree b.path (map_path_documentBindings name root ▸ List.mem_map_of_mem hb)).1
    rw [map_path_documentBindings] at hadds
    refine ⟨nofun, fun a ha => ⟨(Except.ok.inj ha).symm, root, h, rfl, hadds⟩,
      fun e he => absurd he (hunparsed e), fun path => iff_of_false nofun ?_⟩
    rintro ⟨root', hroot', htaken⟩
    rw [hroot hroot', isFirstTaken_iff, hfirst] at htaken
    cases htaken

theorem loadsWhole_loadSource (s : Session) (name : String) (bytes : Bytes) :
    LoadsWhole s name bytes () .source (s.loadSource name bytes) := by
  unfold Session.loadSource
  cases h : parse s.host.maxParseDepth bytes with
  | error e => exact loadsWhole_unparsed h nofun
  | ok root =>
    dsimp only [Session.attempt]
    generalize hout : s.store.exec (behaviour s.host) (Attempt.loadDocument name root).run = out
    have hwhole : LoadsWhole s name bytes () .source
        ((out.1.map fun _ => ()).mapError .evaluation, { s with store := out.2 }) :=
      loadsWhole_parsed h hout
    obtain ⟨r, store⟩ := out
    cases r <;> exact hwhole

theorem exec_readBytes (host : Host) (s : Store Suspension) (path : String) :
    s.exec (behaviour host) (Attempt.readBytes host path).run =
      ((host.storage.readBytes path).mapError .storage, s) := by
  unfold Attempt.readBytes
  cases host.storage.readBytes path <;> rfl

/-- Loading a file comes down to loading its contents under their name. -/
theorem loadFile_of_readBytes {path : String} (h : s.host.storage.readBytes path = .ok bytes) :
    s.loadFile path =
      let name := s.host.contentName bytes
      let out := s.store.exec (behaviour s.host) (Attempt.loadContent s.host name path bytes).run
      ((out.1.map fun _ => name).mapError .evaluation, { s with store := out.2 }) := by
  unfold Session.loadFile Session.attempt Attempt.loadFile
  rw [exec_run_bind, exec_readBytes, h]
  dsimp only [Except.mapError]
  rw [exec_run_bind]
  generalize s.store.exec (behaviour s.host)
    (Attempt.loadContent s.host (s.host.contentName bytes) path bytes).run = out
  obtain ⟨r, store⟩ := out
  cases r <;> rfl

/-! ## The law -/

/-- Loading is all or nothing. A source is loaded whole, with all paths that it declares added in
their order and none of them evaluated, or the session is as it was: for a source that is no
expression, or for the first path that is bound already or repeats another one, which is named. So
is a file, under the name of its contents; contents whose name is bound are loaded already, and a
file that cannot be read changes nothing. -/
theorem loading_is_all_or_nothing (s : Session) :
    (∀ name bytes, LoadsWhole s name bytes () .source (s.loadSource name bytes)) ∧
      ∀ path,
        match s.host.storage.readBytes path with
        | .error e => s.loadFile path = (.error (.evaluation (.storage e)), s)
        | .ok bytes =>
          if s.store.contains (s.host.contentName bytes) = true then
            s.loadFile path = (.ok (s.host.contentName bytes), s)
          else
            LoadsWhole s (s.host.contentName bytes) bytes (s.host.contentName bytes)
              (fun e => .evaluation (.document path e)) (s.loadFile path) := by
  refine ⟨loadsWhole_loadSource s, fun path => ?_⟩
  cases hread : s.host.storage.readBytes path with
  | error e =>
    show s.loadFile path = _
    unfold Session.loadFile Session.attempt Attempt.loadFile
    rw [exec_run_bind, exec_readBytes, hread]
    rfl
  | ok bytes =>
    dsimp only
    rw [loadFile_of_readBytes hread]
    dsimp only
    rw [exec_loadContent]
    by_cases hc : s.store.contains (s.host.contentName bytes) = true
    · simp only [if_pos hc]
      rfl
    · simp only [if_neg hc]
      cases hparse : parse s.host.maxParseDepth bytes with
      | error e => exact loadsWhole_unparsed hparse nofun
      | ok root => exact loadsWhole_parsed hparse rfl

/-- Of the three paths that the source declares the last one is the second over again, by a key with
a dot. -/
example :
    let s := Session.new { storage := .memory [] } {}
    let out := s.loadSource "m" (Utf8.encode "\x7ba:\x7bb:1,b:2\x7d,'a.b':3\x7d")
    out.1 = .error (.evaluation (.duplicateBinding "m.a.b")) ∧ out.2.store.names = [] := by
  decide +kernel

end LazyConfig
