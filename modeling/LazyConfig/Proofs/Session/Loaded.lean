-- Sessions with documents loaded into them, and nothing else done. Such a session is a library:
-- its documents, and the files that they may include.
-- Main statement: a session into which documents were loaded agrees with its library.
import LazyConfig.Proofs.Document.Forcing
import LazyConfig.Session

namespace LazyConfig

open Store

/-! ## Loading -/

namespace Session

/-- Loads sources under their names, one after another, up to the first failure. -/
def loadSources (s : Session) : List (String × Bytes) → Except Failure Unit × Session
  | [] => (.ok (), s)
  | (name, bytes) :: later =>
    match s.loadSource name bytes with
    | (.ok (), s) => s.loadSources later
    | (.error e, s) => (.error e, s)

end Session

/-- A name that is neither the name of a file nor goes on after one with a dot. -/
def Host.Spares (host : Host) (name : String) : Prop :=
  ∀ bytes, host.Readable bytes → ¬ Below (host.contentName bytes) name

/-- The names of files start with a dollar sign, so other names are apart from them. -/
theorem Host.spares_of_head {name : String} (host : Host) (h : name.toList.head? ≠ some '$') :
    host.Spares name := by
  rintro bytes _ (hname | ⟨rest, hname⟩)
  · rw [hname] at h
    simp [Host.contentName, Js64.encode] at h
  · rw [hname, toList_childPath] at h
    simp [Host.contentName, Js64.encode] at h

/-- What is below a name apart from the files is apart from them too. -/
theorem Host.Spares.below {host : Host} {name path : String} (h : host.Spares name)
    (hpath : Below name path) :
    host.Spares path := fun bytes hread hbelow =>
  h bytes hread (hpath.of_below hbelow (host.dot_not_mem_contentName bytes))

/-! ## Loaded documents -/

/-- What loading gives: whole documents, all under names apart from the files, and no values. -/
structure Loaded (host : Host) (s : Store Suspension) : Prop where
  own : ∀ {n b}, s.body? n = some b → b.path = n
  within : ∀ {n b}, s.body? n = some b → ∃ name, host.Spares name ∧ b.Within name
  complete : ∀ {n b members key value}, s.body? n = some b → b.task = .members members →
    .property key value ∈ members → s.contains (childPath n key) = true
  unevaluated : ∀ {n state}, s.state? n = some state → state = .unevaluated

variable {host : Host} {s : Store Suspension}

theorem loaded_empty (host : Host) (limits : Limits) : Loaded host (empty limits) := by
  refine ⟨?_, ?_, ?_, ?_⟩ <;> intros <;> contradiction

theorem Loaded.addAll (h : Loaded host s) {name : String} (hname : host.Spares name)
    (root : Expr) : Loaded host (s.addAll (documentBindings name root)) := by
  have hbody : ∀ {n b}, (s.addAll (documentBindings name root)).body? n = some b →
      s.body? n = some b ∨ b ∈ documentBindings name root ∧ b.path = n := by
    intro n b hb
    rw [body?_addAll, Option.or_eq_some_iff] at hb
    rcases hb with hb | ⟨_, hb⟩
    · exact Or.inl hb
    · exact Or.inr ⟨List.mem_of_find?_eq_some hb, by simpa using List.find?_some hb⟩
  refine ⟨?_, ?_, ?_, ?_⟩
  · intro n b hb
    rcases hbody hb with hb | ⟨_, hpath⟩
    · exact h.own hb
    · exact hpath
  · intro n b hb
    rcases hbody hb with hb | ⟨hmem, _⟩
    · exact h.within hb
    · exact ⟨name, hname, within_documentBindings hmem⟩
  · intro n b members key value hb htask hmem
    rcases hbody hb with hb | ⟨hb, hpath⟩
    · exact (extends_addAll s _).contains (h.complete hb htask hmem)
    · obtain ⟨c, hc, hcpath⟩ :=
        complete_documentBindings name root b hb members key value htask hmem
      rw [← hpath, ← hcpath]
      exact (contains_addAll _ _ _).mpr (Or.inr ⟨c, hc, rfl⟩)
  · intro n state hstate
    rcases state?_addAll hstate with hold | hnew
    · exact h.unevaluated hold
    · exact hnew

theorem loaded_loadSource {s : Session} (h : Loaded s.host s.store) {name : String}
    (hname : s.host.Spares name) (bytes : Bytes) :
    (s.loadSource name bytes).2.host = s.host ∧
      Loaded s.host (s.loadSource name bytes).2.store := by
  refine ⟨Session.host_loadSource s name bytes, ?_⟩
  unfold Session.loadSource
  cases parse s.host.maxParseDepth bytes with
  | error e => exact h
  | ok root =>
    show Loaded s.host (s.store.exec (behaviour s.host) (Attempt.loadDocument name root).run).2
    rw [exec_loadDocument]
    cases firstTaken s.store.contains [] ((documentBindings name root).map (·.path)) with
    | none => exact h.addAll hname root
    | some path => exact h

theorem loaded_loadSources {docs : List (String × Bytes)} {s : Session}
    (h : Loaded s.host s.store) (hnames : ∀ doc ∈ docs, s.host.Spares doc.1) :
    (s.loadSources docs).2.host = s.host ∧ Loaded s.host (s.loadSources docs).2.store := by
  induction docs generalizing s with
  | nil => exact ⟨rfl, h⟩
  | cons doc later ih =>
    obtain ⟨name, bytes⟩ := doc
    obtain ⟨hname, hlater⟩ := List.forall_mem_cons.mp hnames
    obtain ⟨hhost, hloaded⟩ := loaded_loadSource h hname bytes
    unfold Session.loadSources
    rcases hout : s.loadSource name bytes with ⟨r, s'⟩
    rw [hout] at hhost hloaded
    cases r with
    | error e => exact ⟨hhost, hloaded⟩
    | ok _ =>
      simp only at hhost hloaded ⊢
      rw [← hhost] at hloaded hlater ⊢
      exact ih hloaded hlater

/-- The library of a session: what was loaded, and the files of its host. -/
def Loaded.library (h : Loaded host s) (hdigest : host.CollisionFree) : Library where
  host := host
  loaded := s
  collisionFree := hdigest
  own := h.own
  apart := by
    intro n b bytes hb hread path hpath hbelow
    obtain ⟨name, hname, hwithin⟩ := h.within hb
    have hbelow' : Below name path := by
      rcases List.mem_cons.mp hpath with rfl | hscope
      · exact h.own hb ▸ hwithin.path
      · exact hwithin.scopes path hscope
    exact hname bytes hread (hbelow'.of_below hbelow (host.dot_not_mem_contentName bytes))
  complete := h.complete

theorem Loaded.not_evaluated (h : Loaded host s) {n : String} {v : Value} :
    s.state? n ≠ some (.evaluated v) := by
  intro hv
  cases h.unevaluated hv

theorem Loaded.idle (h : Loaded host s) : Disciplined s [] := by
  refine ⟨fun n => iff_of_false (fun hp => ?_) List.not_mem_nil, List.nodup_nil⟩
  cases h.unevaluated hp

/-- Nothing was included yet and no value is kept, so the session agrees with its library. -/
theorem Loaded.agrees (h : Loaded host s) (hdigest : host.CollisionFree) :
    (h.library hdigest).Agrees s := by
  refine ⟨⟨fun {n b} hb => ?_, id, ?_⟩, fun hv => ?_, fun hv => ?_⟩
  · have hpath := h.own hb
    exact Library.offer?_eq_some.mpr ⟨.loaded (hpath.symm ▸ hb), hpath⟩
  · intro bytes root hfile b hb b' hb' hc
    rw [contains_eq_body?, Option.isSome_iff_exists] at hc
    obtain ⟨c, hc⟩ := hc
    have hbelow := (within_documentBindings hb).path
    exact absurd hbelow ((h.library hdigest).apart hc hfile.readable b.path List.mem_cons_self)
  · exact absurd hv h.not_evaluated
  · exact absurd hv h.not_evaluated

end LazyConfig
