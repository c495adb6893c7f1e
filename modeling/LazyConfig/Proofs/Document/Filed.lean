-- Stores with files among other documents. A file is there whole or not at all, and nothing else is
-- bound below its name; its bindings keep the values that they have by themselves.
-- Main statement: wherever and whenever a file is loaded, the result is the same.
import LazyConfig.Proofs.Document.Declared
import LazyConfig.Proofs.Document.Yield

namespace LazyConfig

open Store

variable {α β : Type}

/-- The program makes no requests and does not ask which names are bound. -/
def Program.OnlyDefines {T R : Type} : Program T R α → Prop
  | .done _ => True
  | .define _ _ next => ∀ r, (next r).OnlyDefines
  | .contains _ _ => False
  | .value _ _ _ => False

namespace Library

variable {L : Library} {s s' : Store Suspension} {name : String}

/-! ## Stores with files -/

/-- The scope is in a file that is loaded. -/
def Shelved (L : Library) (s : Store Suspension) (scope : String) : Prop :=
  ∃ bytes, L.host.Readable bytes ∧ Below (L.host.contentName bytes) scope ∧
    s.contains (L.host.contentName bytes) = true

theorem Shelved.extends {scope : String} (h : L.Shelved s scope) (hext : s.Extends s') :
    L.Shelved s' scope := by
  obtain ⟨bytes, hread, hbelow, hc⟩ := h
  exact ⟨bytes, hread, hbelow, hext.contains hc⟩

/-- The store holds files whole or not at all, and keeps the values for their bindings that they
have by themselves. -/
structure Filed (L : Library) (s : Store Suspension) : Prop where
  body {bytes : Bytes} {n : String} : L.host.Readable bytes → Below (L.host.contentName bytes) n →
    s.body? n = if s.contains (L.host.contentName bytes) = true then L.offer? n else none
  shelved {n v} : L.host.InFile n → s.state? n = some (.evaluated v) →
    ∀ c ∈ v.closures, ∀ scope ∈ c.scopes, L.Shelved s scope
  yields {n v} : L.host.InFile n → s.state? n = some (.evaluated v) → L.Yields n v

/-- What is bound in a file is bound for good, and is what the library offers. -/
theorem Filed.offer (hs : L.Filed s) (hfile : L.host.InFile name) {b : Suspension}
    (hb : s.body? name = some b) : L.offer? name = some b := by
  obtain ⟨bytes, hread, hbelow⟩ := hfile
  rw [hs.body hread hbelow] at hb
  split at hb
  · exact hb
  · cases hb

/-- In a file that is loaded exactly those names are bound that the library offers. -/
theorem Filed.contains_eq (hs : L.Filed s) {scope : String} (hscope : L.Shelved s scope)
    (key : String) : s.contains (childPath scope key) = L.bound (childPath scope key) := by
  obtain ⟨bytes, hread, hbelow, hc⟩ := hscope
  rw [contains_eq_body?, hs.body hread (hbelow.child key), if_pos hc, bound]

/-- A later store is filed, if it has the same bindings of files, and if the values that it keeps in
addition are what they should be. -/
theorem Filed.later (hs : L.Filed s) (hext : s.Extends s')
    (hbody : ∀ n, L.host.InFile n → s'.body? n = s.body? n)
    (hnew : ∀ {n v}, L.host.InFile n → s'.state? n = some (.evaluated v) →
      s.state? n = some (.evaluated v) ∨
        (∀ c ∈ v.closures, ∀ scope ∈ c.scopes, L.Shelved s' scope) ∧ L.Yields n v) :
    L.Filed s' := by
  refine ⟨fun {bytes n} hread hbelow => ?_, fun {n v} hfile hv => ?_, fun {n v} hfile hv => ?_⟩
  · have hname : s'.contains (L.host.contentName bytes) =
        s.contains (L.host.contentName bytes) := by
      rw [contains_eq_body?, hbody _ ⟨bytes, hread, .refl _⟩, contains_eq_body?]
    rw [hbody n ⟨bytes, hread, hbelow⟩, hname]
    exact hs.body hread hbelow
  · rcases hnew hfile hv with hold | ⟨hshelved, _⟩
    · exact fun c hc scope hscope => (hs.shelved hfile hold c hc scope hscope).extends hext
    · exact hshelved
  · rcases hnew hfile hv with hold | ⟨_, hyields⟩
    · exact hs.yields hfile hold
    · exact hyields

theorem filed_empty (L : Library) (limits : Limits) : L.Filed (empty limits) := by
  refine ⟨fun _ _ => ?_, ?_, ?_⟩
  · simp [body?, find?_empty, contains_eq]
  · intros
    contradiction
  · intros
    contradiction

theorem Filed.start (hs : L.Filed s) {b : Suspension} (hr : s.reply name = .run b) :
    L.Filed (s.start name) :=
  hs.later (extends_start hr) (fun n _ => body?_mark s name .inProgress n)
    fun _ hv => Or.inl (state?_of_mark (by simp) hv)

theorem Filed.giveUp (hs : L.Filed s) (hp : s.state? name = some .inProgress) :
    L.Filed (s.mark name .unevaluated) :=
  hs.later (extends_mark s name (by simp [hp]) .unevaluated)
    (fun n _ => body?_mark s name .unevaluated n) fun _ hv => Or.inl (state?_of_mark (by simp) hv)

/-- A document that is no file adds nothing to files. -/
theorem Filed.addApart (hs : L.Filed s) {bindings : List Suspension}
    (hapart : ∀ b ∈ bindings, ¬ L.host.InFile b.path) : L.Filed (s.addAll bindings) := by
  apply hs.later (extends_addAll s bindings)
  · intro n hfile
    have hnone : (bindings.find? fun b => b.path = n) = none := by
      rw [List.find?_eq_none]
      intro b hb heq
      exact hapart b hb (of_decide_eq_true heq ▸ hfile)
    rw [body?_addAll, hnone, Option.or_none]
  · intro n v _ hv
    rcases state?_addAll hv with hold | hnew
    · exact Or.inl hold
    · cases hnew

variable {bytes : Bytes} {root : Expr}

/-- Of a file that is not loaded nothing is bound. -/
theorem Filed.contains_eq_false (hs : L.Filed s) (hread : L.host.Readable bytes)
    (hname : ¬ s.contains (L.host.contentName bytes) = true) {n : String}
    (hbelow : Below (L.host.contentName bytes) n) : s.contains n = false := by
  rw [contains_eq_body?, hs.body hread hbelow, if_neg hname]
  rfl

theorem find?_fileBindings (hfile : L.host.Loadable bytes root) {n : String}
    (hbelow : Below (L.host.contentName bytes) n) :
    ((L.host.fileBindings bytes root).find? fun b => b.path = n) = L.offer? n := by
  apply Option.ext
  intro b
  rw [offer?_eq_some]
  constructor
  · intro h
    exact ⟨.file hfile (List.mem_of_find?_eq_some h), by simpa using List.find?_some h⟩
  · rintro ⟨hoffers, rfl⟩
    obtain ⟨root', hfile', hb⟩ := hoffers.of_below hfile.readable hbelow
    obtain rfl := hfile.root_eq hfile'.parsed
    exact find?_path hfile.nodup hb

/-- The name of a file is bound in the library if the file can be loaded. -/
theorem bound_contentName (hread : L.host.Readable bytes) :
    L.bound (L.host.contentName bytes) = true ↔ ∃ root, L.host.Loadable bytes root := by
  rw [bound_iff]
  constructor
  · rintro ⟨b, hb, hpath⟩
    obtain ⟨root, hfile, _⟩ := hb.of_below hread (.inl hpath)
    exact ⟨root, hfile⟩
  · rintro ⟨root, hfile⟩
    obtain ⟨top, htop, hpath⟩ := name_mem_documentBindings (L.host.contentName bytes) root
    exact ⟨top, .file hfile htop, hpath⟩

/-- A file that is loaded is there with all its paths. -/
theorem Filed.whole (hs : L.Filed s) (hread : L.host.Readable bytes)
    (hname : s.contains (L.host.contentName bytes) = true) :
    ∃ root, parse L.host.maxParseDepth bytes = .ok root ∧
      ∀ path ∈ root.declared (L.host.contentName bytes), s.contains path = true := by
  have hbody : ∀ {n}, Below (L.host.contentName bytes) n → s.contains n = L.bound n := by
    intro n hbelow
    rw [contains_eq_body?, hs.body hread hbelow, if_pos hname]
    rfl
  rw [hbody (.refl _)] at hname
  obtain ⟨root, hfile⟩ := (bound_contentName hread).mp hname
  refine ⟨root, hfile.parsed, fun path hpath => ?_⟩
  rw [← map_path_documentBindings] at hpath
  obtain ⟨b, hb, rfl⟩ := List.mem_map.mp hpath
  rw [hbody (within_documentBindings hb).path]
  exact bound_iff.mpr ⟨b, .file hfile hb, rfl⟩

/-- A file that can be loaded is loaded whole. -/
theorem Filed.addFile (hs : L.Filed s) (hfile : L.host.Loadable bytes root)
    (hname : ¬ s.contains (L.host.contentName bytes) = true) :
    L.Filed (s.addAll (L.host.fileBindings bytes root)) := by
  have hext := extends_addAll s (L.host.fileBindings bytes root)
  have hwithin : ∀ b ∈ L.host.fileBindings bytes root, Below (L.host.contentName bytes) b.path :=
    fun b hb => (within_documentBindings hb).path
  have hadded : (s.addAll (L.host.fileBindings bytes root)).contains
      (L.host.contentName bytes) = true := by
    obtain ⟨top, htop, hpath⟩ := name_mem_documentBindings (L.host.contentName bytes) root
    exact (contains_addAll _ _ _).mpr (Or.inr ⟨top, htop, hpath⟩)
  refine ⟨fun {bytes' n} hread hbelow => ?_, fun {n v} hin hv => ?_, fun {n v} hin hv => ?_⟩
  · rw [body?_addAll]
    by_cases hsame : bytes' = bytes
    · subst hsame
      rw [hs.body hread hbelow, if_neg hname, if_pos hadded, Option.none_or,
        find?_fileBindings hfile hbelow]
    · -- The names of another file are as they were.
      have hother : ∀ m, Below (L.host.contentName bytes') m →
          ((L.host.fileBindings bytes root).find? fun b => b.path = m) = none := by
        intro m hm
        rw [List.find?_eq_none]
        intro b hb heq
        have hbelow' := hwithin b hb
        rw [of_decide_eq_true heq] at hbelow'
        exact hsame (L.collisionFree.bytes_eq_of_below hread hfile.readable hm hbelow')
      have hcontains : (s.addAll (L.host.fileBindings bytes root)).contains
          (L.host.contentName bytes') = s.contains (L.host.contentName bytes') := by
        rw [contains_eq_body?, body?_addAll, hother _ (.refl _), Option.or_none, contains_eq_body?]
      rw [hother n hbelow, Option.or_none, hcontains]
      exact hs.body hread hbelow
  · rcases state?_addAll hv with hold | hnew
    · exact fun c hc scope hscope => (hs.shelved hin hold c hc scope hscope).extends hext
    · cases hnew
  · rcases state?_addAll hv with hold | hnew
    · exact hs.yields hin hold
    · cases hnew

/-! ## The contract -/

/-- What the bodies of files and of other documents agree on: a body of a file asks only for
bindings of files that it needs itself; a request for a binding of a file fails only if the binding
evaluates to nothing, or for want of quotas or levels, and the outcome of a body of a file is what
it evaluates to. All others ask for what they like. -/
def contract (L : Library) : Contract Suspension where
  keeps := L.Filed
  asks
    | none, _ => True
    | some owner, name => L.host.InFile owner → L.host.InFile name ∧ L.Links owner name
  answers s name
    | .ok v => s.state? name = some (.evaluated v)
    | .error e => e.isResource = true ∨
        (L.host.InFile name → s.contains name = true → L.Barren name)
  ends
    | none, s, _ => L.Filed s
    | some owner, s, r => L.Filed s ∧ (L.host.InFile owner →
        match r with
        | .ok v => (∀ c ∈ v.closures, ∀ scope ∈ c.scopes, L.Shelved s scope) ∧ L.Yields owner v
        | .error e => e.isResource = true ∨ L.Barren owner)

/-! ## Loading -/

section

variable {C : Contract Suspension} {asks : String → Prop}
variable {post : Store Suspension → Except EvalError Unit → Prop}

theorem honors_checkPaths (hs : C.keeps s) (earlier paths : List String) :
    C.Honors asks (fun s' r => s' = s ∧ r = checked (firstTaken s.contains earlier paths))
      (Attempt.checkPaths earlier paths).run s := by
  induction paths generalizing earlier with
  | nil => exact ⟨rfl, rfl⟩
  | cons path later ih =>
    refine ⟨hs, ?_⟩
    show C.Honors asks _ (ExceptT.run (if (s.contains path || earlier.contains path) = true then
      throw (.duplicateBinding path) else Attempt.checkPaths (path :: earlier) later)) s
    unfold firstTaken
    by_cases h : (s.contains path || earlier.contains path) = true
    · simp only [if_pos h]
      exact ⟨rfl, rfl⟩
    · simp only [if_neg h]
      exact ih (path :: earlier)

/-- A program that only defines honors any contract, if it ends as it should. -/
theorem honors_of_onlyDefines {T R : Type} {C : Contract T} {post : Store T → α → Prop}
    {p : Program T R α} (hp : p.OnlyDefines) (behaviour : Behaviour T R) {s : Store T} :
    C.Honors asks post p s ↔ post (s.exec behaviour p).2 (s.exec behaviour p).1 := by
  induction p generalizing s with
  | done a => exact Iff.rfl
  | define name body next ih => exact ih _ (hp _)
  | contains name next ih => exact hp.elim
  | value context name next ih => exact hp.elim

theorem onlyDefines_defineAll (bindings : List Suspension) :
    (Attempt.defineAll bindings).run.OnlyDefines := by
  induction bindings with
  | nil => trivial
  | cons b later ih =>
    intro r
    cases r with
    | ok _ => exact ih
    | error e => trivial

/-- A document is loaded whole or not at all, with a request neither before nor between. -/
theorem honors_loadDocument (hs : C.keeps s) (root : Expr)
    (hpost : match firstTaken s.contains [] ((documentBindings name root).map (·.path)) with
      | none => post (s.addAll (documentBindings name root)) (.ok ())
      | some path => post s (.error (.duplicateBinding path))) :
    C.Honors asks post (Attempt.loadDocument name root).run s := by
  apply (honors_checkPaths hs [] _).bind
  rintro s' r _ ⟨rfl, rfl⟩
  cases h : firstTaken s'.contains [] ((documentBindings name root).map (·.path)) with
  | some path =>
    rw [h] at hpost
    exact hpost
  | none =>
    rw [h] at hpost
    obtain ⟨hnodup, hfree⟩ := firstTaken_eq_none.mp h
    -- No body is run, so any will do.
    let idle : Behaviour Suspension Nat := fun _ _ => .done (.ok .undefined)
    have hexec := exec_defineAll idle hnodup fun b hb => (hfree b.path (List.mem_map_of_mem hb)).1
    apply (honors_of_onlyDefines (onlyDefines_defineAll _) idle).mpr
    rw [hexec]
    exact hpost

end

/-- What loading a file results in is up to the file, and the file is there then. -/
theorem honors_loadContent {asks : String → Prop} (hs : L.Filed s) (hread : L.host.Readable bytes)
    (path : String) :
    L.contract.Honors asks (fun s' r => L.Filed s' ∧
        (∀ ask, L.given ask
          (Attempt.loadContent L.host (L.host.contentName bytes) path bytes) = r) ∧
        (r = .ok () → s'.contains (L.host.contentName bytes) = true))
      (Attempt.loadContent L.host (L.host.contentName bytes) path bytes).run s := by
  refine ⟨hs, ?_⟩
  -- The program goes on with what the store contains.
  show L.contract.Honors asks _
    (ExceptT.run (if s.contains (L.host.contentName bytes) = true then pure () else _)) s
  by_cases hc : s.contains (L.host.contentName bytes) = true
  · have hbody := hs.body hread (.refl _)
    rw [if_pos hc] at hbody
    have hbound : L.bound (L.host.contentName bytes) = true := by
      rw [bound, ← hbody, ← contains_eq_body?, hc]
    rw [if_pos hc]
    exact ⟨hs, fun ask => by rw [given_loadContent, if_pos hbound], fun _ => hc⟩
  rw [if_neg hc]
  cases hparse : parse L.host.maxParseDepth bytes with
  | error e =>
    have hbound : ¬ L.bound (L.host.contentName bytes) = true := by
      rw [bound_contentName hread]
      rintro ⟨root, hfile⟩
      rw [hfile.parsed] at hparse
      cases hparse
    exact ⟨hs, fun ask => by rw [given_loadContent, if_neg hbound, hparse], fun h => by cases h⟩
  | ok root =>
    apply honors_loadDocument hs
    have hfree : ∀ p ∈ (documentBindings (L.host.contentName bytes) root).map (·.path),
        s.contains p = false := by
      intro p hp
      obtain ⟨b, hb, rfl⟩ := List.mem_map.mp hp
      exact hs.contains_eq_false hread hc (within_documentBindings hb).path
    by_cases hfile : L.host.Loadable bytes root
    · have hfirst : firstTaken s.contains []
          ((documentBindings (L.host.contentName bytes) root).map (·.path)) = none :=
        firstTaken_eq_none.mpr ⟨hfile.nodup, fun p hp => ⟨hfree p hp, List.not_mem_nil⟩⟩
      have hbound := (bound_contentName hread).mpr ⟨root, hfile⟩
      obtain ⟨top, htop, hpath⟩ := name_mem_documentBindings (L.host.contentName bytes) root
      rw [hfirst]
      refine ⟨hs.addFile hfile hc, fun ask => by rw [given_loadContent, if_pos hbound], fun _ => ?_⟩
      exact (contains_addAll _ _ _).mpr (Or.inr ⟨top, htop, hpath⟩)
    · have htaken : ∀ p ∈ (L.host.fileBindings bytes root).map (·.path), s.contains p = true →
          L.bound p = true := by
        intro p hp hcontains
        rw [hfree p hp] at hcontains
        cases hcontains
      have hbound : ¬ L.bound (L.host.contentName bytes) = true := by
        rw [bound_contentName hread]
        rintro ⟨root', hfile'⟩
        obtain rfl := hfile'.root_eq hparse
        exact hfile hfile'
      obtain ⟨p, hstore, hlibrary⟩ := exists_firstTaken hread hfile hparse htaken
      unfold Host.fileBindings at hstore hlibrary
      rw [hstore]
      refine ⟨hs, fun ask => ?_, fun h => by cases h⟩
      rw [given_loadContent, if_neg hbound, hparse]
      show L.given ask (Attempt.loadDocument _ root) = _
      rw [Attempt.loadDocument, given_bind, given_checkPaths, hlibrary]

/-- Wherever a file is loaded, the result is the same. -/
theorem honors_loadFile (asks : String → Prop) (hs : L.Filed s) (path : String) :
    L.contract.Honors asks (fun s' r => L.Filed s' ∧
        (∀ ask, L.given ask (Attempt.loadFile L.host path) = r) ∧
        ∀ name, r = .ok name → L.host.InFile name ∧ s'.contains name = true)
      (Attempt.loadFile L.host path).run s := by
  rw [loadFile_eq]
  cases hread : L.host.storage.readBytes path with
  | error e => exact ⟨hs, fun _ => rfl, nofun⟩
  | ok bytes =>
    apply (honors_loadContent hs ⟨path, hread⟩ path).bind
    rintro s' r _ ⟨hs', hgiven, hloaded⟩
    cases r with
    | error e => exact ⟨hs', fun ask => by rw [given_bind, hgiven], nofun⟩
    | ok _ =>
      refine ⟨hs', fun ask => by rw [given_bind, hgiven]; rfl, fun name hname => ?_⟩
      rw [Except.ok.injEq] at hname
      subst hname
      exact ⟨⟨bytes, ⟨path, hread⟩, .refl _⟩, hloaded rfl⟩

end Library

end LazyConfig
