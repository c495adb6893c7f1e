-- What loading a document does to a store: all its bindings are added, or nothing happens and
-- the first path that is taken, by the store or by the document itself, is the error.
-- Main statement: the result and the store after a document was loaded.
import LazyConfig.Document.Loading
import LazyConfig.Proofs.Engine.Permanence

namespace LazyConfig

open Store

/-! ## Paths that are taken -/

/-- The first path that is taken or that repeats one of `earlier` or one before it. -/
def firstTaken (taken : String → Bool) (earlier : List String) : List String → Option String
  | [] => none
  | path :: later =>
    if taken path || earlier.contains path then some path
    else firstTaken taken (path :: earlier) later

theorem firstTaken_eq_none {taken : String → Bool} {earlier paths : List String} :
    firstTaken taken earlier paths = none ↔
      paths.Nodup ∧ ∀ path ∈ paths, taken path = false ∧ path ∉ earlier := by
  induction paths generalizing earlier with
  | nil => simp [firstTaken]
  | cons path later ih =>
    unfold firstTaken
    by_cases h : (taken path || earlier.contains path) = true
    · rw [if_pos h]
      refine iff_of_false (by simp) ?_
      rintro ⟨_, hfree⟩
      obtain ⟨htaken, hmem⟩ := hfree path List.mem_cons_self
      simp [htaken, hmem] at h
    · rw [if_neg h, ih, List.nodup_cons, List.forall_mem_cons]
      simp only [Bool.or_eq_true, List.contains_iff_mem, not_or, Bool.not_eq_true] at h
      constructor
      · rintro ⟨hnodup, hfree⟩
        refine ⟨⟨fun hmem => ?_, hnodup⟩, h, fun other hother => ?_⟩
        · exact (hfree path hmem).2 List.mem_cons_self
        · obtain ⟨htaken, hmem⟩ := hfree other hother
          exact ⟨htaken, fun hearlier => hmem (List.mem_cons_of_mem _ hearlier)⟩
      · rintro ⟨⟨hnot, hnodup⟩, _, hfree⟩
        refine ⟨hnodup, fun other hother => ⟨(hfree other hother).1, fun hmem => ?_⟩⟩
        rcases List.mem_cons.mp hmem with rfl | hmem
        · exact hnot hother
        · exact (hfree other hother).2 hmem

theorem firstTaken_congr {taken taken' : String → Bool} {paths : List String}
    (h : ∀ path ∈ paths, taken path = taken' path) (earlier : List String) :
    firstTaken taken earlier paths = firstTaken taken' earlier paths := by
  induction paths generalizing earlier with
  | nil => rfl
  | cons path later ih =>
    obtain ⟨hpath, hlater⟩ := List.forall_mem_cons.mp h
    rw [firstTaken, firstTaken, hpath, ih hlater]

/-- The outcome of checking paths. -/
def checked : Option String → Except EvalError Unit
  | none => .ok ()
  | some path => .error (.duplicateBinding path)

variable (behaviour : Behaviour Suspension Nat)

theorem exec_attempt_contains (s : Store Suspension) (path : String) :
    s.exec behaviour (Attempt.contains path).run = (.ok (s.contains path), s) :=
  exec_contains behaviour path _ s

theorem exec_checkPaths (s : Store Suspension) (earlier paths : List String) :
    s.exec behaviour (Attempt.checkPaths earlier paths).run =
      (checked (firstTaken s.contains earlier paths), s) := by
  induction paths generalizing earlier with
  | nil => rfl
  | cons path later ih =>
    rw [Attempt.checkPaths, exec_run_bind, exec_attempt_contains, firstTaken]
    by_cases h : (s.contains path || earlier.contains path) = true
    · simp only [h, if_true]
      rfl
    · simp only [h, Bool.false_eq_true, if_false]
      exact ih (path :: earlier)

/-! ## Adding bindings -/

/-- The store with bindings added that are not evaluated. -/
def Store.addAll (s : Store Suspension) (bindings : List Suspension) : Store Suspension :=
  { s with
    bindings := s.bindings ++ bindings.map fun b => ⟨b.path, .unevaluated, b⟩
    names := s.names ++ bindings.map (·.path) }

theorem exec_defineAll {bindings : List Suspension} (hnodup : (bindings.map (·.path)).Nodup)
    {s : Store Suspension} (hfree : ∀ b ∈ bindings, s.contains b.path = false) :
    s.exec behaviour (Attempt.defineAll bindings).run = (.ok (), s.addAll bindings) := by
  induction bindings generalizing s with
  | nil =>
    have hsame : s.addAll [] = s := by simp [addAll]
    rw [hsame]
    rfl
  | cons b later ih =>
    obtain ⟨hb, hlater⟩ := List.forall_mem_cons.mp hfree
    rw [List.map_cons, List.nodup_cons] at hnodup
    have hdefine : s.exec behaviour (Attempt.define b).run = (.ok (), s.addAll [b]) := by
      have heq : s.define b.path b = (.ok (), s.addAll [b]) := by simp [Store.define, hb, addAll]
      show s.define b.path b = _
      exact heq
    have hfresh : ∀ c ∈ later, (s.addAll [b]).contains c.path = false := by
      intro c hc
      have hne : b.path ≠ c.path := by
        intro heq
        exact hnodup.1 (heq ▸ List.mem_map_of_mem hc)
      have hold := hlater c hc
      simp only [Store.contains, addAll, List.any_append] at hold ⊢
      simp [hold, hne]
    rw [Attempt.defineAll, exec_run_bind, hdefine]
    simp only [ih hnodup.2 hfresh]
    simp [addAll]

theorem find?_addAll (s : Store Suspension) (bindings : List Suspension) (name : String) :
    (s.addAll bindings).find? name = (s.find? name).or
      ((bindings.find? fun b => b.path = name).map fun b => ⟨b.path, .unevaluated, b⟩) := by
  simp only [Store.find?, addAll, List.find?_append, List.find?_map, Function.comp_def]

theorem extends_addAll (s : Store Suspension) (bindings : List Suspension) :
    s.Extends (s.addAll bindings) := by
  refine ⟨⟨_, rfl⟩, fun n b hb => ⟨b, ?_, rfl⟩, fun n v hv => ?_⟩
  · rw [find?_addAll, hb, Option.some_or]
  · obtain ⟨b, hb, hstate⟩ := find?_of_state? hv
    rw [state?, find?_addAll, hb, Option.some_or, Option.map_some, hstate]

theorem contains_addAll (s : Store Suspension) (bindings : List Suspension) (name : String) :
    (s.addAll bindings).contains name = true ↔
      s.contains name = true ∨ ∃ b ∈ bindings, b.path = name := by
  simp [Store.contains, addAll, List.any_append]

/-- What is added is not evaluated. -/
theorem state?_addAll {s : Store Suspension} {bindings : List Suspension} {name : String}
    {state : BindingState} (h : (s.addAll bindings).state? name = some state) :
    s.state? name = some state ∨ state = .unevaluated := by
  rw [state?, find?_addAll, Option.map_or, Option.or_eq_some_iff, Option.map_map] at h
  rcases h with h | ⟨_, h⟩
  · exact Or.inl h
  · rw [Option.map_eq_some_iff] at h
    obtain ⟨_, _, heq⟩ := h
    exact Or.inr heq.symm

/-- A document is loaded whole or not at all. -/
theorem exec_loadDocument (s : Store Suspension) (name : String) (root : Expr) :
    s.exec behaviour (Attempt.loadDocument name root).run =
      match firstTaken s.contains [] ((documentBindings name root).map (·.path)) with
      | none => (.ok (), s.addAll (documentBindings name root))
      | some path => (.error (.duplicateBinding path), s) := by
  rw [Attempt.loadDocument, exec_run_bind, exec_checkPaths]
  cases h : firstTaken s.contains [] ((documentBindings name root).map (·.path)) with
  | some path => rfl
  | none =>
    obtain ⟨hnodup, hfree⟩ := firstTaken_eq_none.mp h
    apply exec_defineAll behaviour hnodup
    intro b hb
    exact (hfree b.path (List.mem_map_of_mem hb)).1

/-- The document in a file is loaded unless its name is bound. -/
theorem exec_loadContent (host : Host) (s : Store Suspension) (name path : String)
    (bytes : Bytes) :
    s.exec behaviour (Attempt.loadContent host name path bytes).run =
      if s.contains name = true then (.ok (), s)
      else
        match parse host.maxParseDepth bytes with
        | .ok root => s.exec behaviour (Attempt.loadDocument name root).run
        | .error e => (.error (.document path e), s) := by
  rw [Attempt.loadContent, exec_run_bind, exec_attempt_contains]
  by_cases h : s.contains name = true
  · simp only [h, if_true]
    rfl
  · simp only [h, Bool.false_eq_true, if_false]
    cases parse host.maxParseDepth bytes <;> rfl

/-- Loading a file loads its contents under their name. -/
theorem loadFile_eq (host : Host) (path : String) :
    Attempt.loadFile host path =
      match host.storage.readBytes path with
      | .ok bytes => Attempt.loadContent host (host.contentName bytes) path bytes >>=
        fun _ => pure (host.contentName bytes)
      | .error e => throw (.storage e) := by
  unfold Attempt.loadFile Attempt.readBytes
  cases host.storage.readBytes path <;> rfl

end LazyConfig
