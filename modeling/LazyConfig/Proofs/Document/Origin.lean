-- Where expressions come from. Each binding is of a document that is loaded, so what is evaluated
-- was written in a loaded document, the bodies of the lambdas in values included.
-- Main statement: being written in a loaded document is a footing that lasts.
import LazyConfig.Proofs.Document.Heights
import LazyConfig.Proofs.Document.Lasting
import LazyConfig.Proofs.Document.Lexical

namespace LazyConfig

open Store

/-! ## Expressions inside expressions -/

theorem lastValue?_mem {key : String} {value : Expr} {members : List Member}
    (h : lastValue? key members = some value) : .property key value ∈ members := by
  induction members with
  | nil => cases h
  | cons m later ih =>
    cases m with
    | spread e => exact List.mem_cons_of_mem _ (ih h)
    | property other value' =>
      rw [lastValue?, Option.or_eq_some_iff] at h
      rcases h with h | ⟨_, h⟩
      · exact List.mem_cons_of_mem _ (ih h)
      · by_cases hkey : other = key
        · rw [if_pos hkey, Option.some.injEq] at h
          rw [hkey, h]
          exact List.mem_cons_self
        · rw [if_neg hkey] at h
          cases h

/-- What stands in a document is a part of it. -/
theorem Stands.partOf {name path : String} {root e : Expr} {around : List Scope}
    (h : Stands name root around path e) : e.PartOf root := by
  induction h with
  | root => exact Relation.ReflTransGen.refl
  | @property around path key span members value h hvalue ih =>
    exact ih.child (Member.expr_mem_children (lastValue?_mem hvalue))

/-- So is all that its bindings evaluate. -/
theorem partOf_of_mem_documentBindings {name : String} {root : Expr} {b : Suspension}
    (hb : b ∈ documentBindings name root) {e : Expr} (he : e ∈ b.task.expressions) :
    e.PartOf root := by
  obtain ⟨around, path, standing, hstands, rfl⟩ := exists_stands_of_mem hb
  have hpart := hstands.partOf
  cases standing with
  | object span members =>
    obtain ⟨m, hm, rfl⟩ := List.mem_map.mp he
    exact hpart.child (Member.expr_mem_children hm)
  | _ => exact List.mem_singleton.mp he ▸ hpart

/-! ## Loaded documents -/

/-- The document is loaded: all its bindings are there. -/
def Store.HasDocument (s : Store Suspension) (name : String) (root : Expr) : Prop :=
  ∀ b ∈ documentBindings name root, s.body? b.path = some b

theorem Store.HasDocument.later {s s' : Store Suspension} {name : String} {root : Expr}
    (h : s.HasDocument name root)
    (hlater : ∀ n b, s.body? n = some b → s'.body? n = some b) : s'.HasDocument name root :=
  fun b hb => hlater b.path b (h b hb)

theorem hasDocument_addAll {s : Store Suspension} {name : String} {root : Expr}
    (hfree : firstTaken s.contains [] ((documentBindings name root).map (·.path)) = none) :
    (s.addAll (documentBindings name root)).HasDocument name root := by
  obtain ⟨hnodup, hnew⟩ := firstTaken_eq_none.mp hfree
  intro b hb
  have hnone : s.body? b.path = none := by
    rw [← Option.not_isSome_iff_eq_none, ← contains_eq_body?, (hnew _ (List.mem_map_of_mem hb)).1]
    simp
  rw [body?_addAll, hnone, Option.none_or, find?_path hnodup hb]

section

variable (source : String → Expr → Prop)

/-- The expression was written in a document that is loaded, from one of the sources. -/
def Written (s : Store Suspension) (e : Expr) : Prop :=
  ∃ name root, source name root ∧ s.HasDocument name root ∧ e.PartOf root

/-- Each binding has the path of its body, and is of a document that is loaded from one of the
sources. -/
def Documented (s : Store Suspension) : Prop :=
  ∀ n b, s.body? n = some b → b.path = n ∧
    ∃ name root, source name root ∧ s.HasDocument name root ∧ b ∈ documentBindings name root

/-- The files of a host are among the sources. -/
def Host.FilesAmong (host : Host) : Prop :=
  ∀ bytes root, host.Readable bytes → parse host.maxParseDepth bytes = .ok root →
    source (host.contentName bytes) root

variable {source} {s s' : Store Suspension}

theorem Written.later {e : Expr} (h : Written source s e)
    (hlater : ∀ n b, s.body? n = some b → s'.body? n = some b) : Written source s' e := by
  obtain ⟨name, root, hsource, hloaded, hpart⟩ := h
  exact ⟨name, root, hsource, hloaded.later hlater, hpart⟩

theorem Written.child {e inside : Expr} (h : Written source s e) (hmem : inside ∈ e.children) :
    Written source s inside := by
  obtain ⟨name, root, hsource, hloaded, hpart⟩ := h
  exact ⟨name, root, hsource, hloaded, hpart.child hmem⟩

theorem Documented.written (h : Documented source s) {n : String} {b : Suspension}
    (hb : s.body? n = some b) {e : Expr} (he : e ∈ b.task.expressions) : Written source s e := by
  obtain ⟨_, name, root, hsource, hloaded, hmem⟩ := h n b hb
  exact ⟨name, root, hsource, hloaded, partOf_of_mem_documentBindings hmem he⟩

theorem documented_empty (limits : Limits) : Documented source (empty limits) := nofun

theorem Documented.same (h : Documented source s) (hbodies : s'.bodies = s.bodies) :
    Documented source s' := by
  have hsame : ∀ n, s'.body? n = s.body? n := fun n => by
    rw [body?_eq_bodies, hbodies, body?_eq_bodies]
  intro n b hb
  rw [hsame] at hb
  obtain ⟨hpath, name, root, hsource, hloaded, hmem⟩ := h n b hb
  exact ⟨hpath, name, root, hsource, hloaded.later fun n b hb => (hsame n).trans hb, hmem⟩

theorem Documented.addAll (h : Documented source s) {name : String} {root : Expr}
    (hsource : source name root)
    (hfree : firstTaken s.contains [] ((documentBindings name root).map (·.path)) = none) :
    Documented source (s.addAll (documentBindings name root)) := by
  have hlater : ∀ n b, s.body? n = some b →
      (s.addAll (documentBindings name root)).body? n = some b := fun _ _ =>
    (precedes_addAll s _).body?
  intro n b hb
  rw [body?_addAll, Option.or_eq_some_iff] at hb
  rcases hb with hold | ⟨_, hnew⟩
  · obtain ⟨hpath, name', root', hsource', hloaded, hmem⟩ := h n b hold
    exact ⟨hpath, name', root', hsource', hloaded.later hlater, hmem⟩
  · have hpath : b.path = n := by simpa using List.find?_some hnew
    exact ⟨hpath, name, root, hsource, hasDocument_addAll hfree, List.mem_of_find?_eq_some hnew⟩

end

/-! ## The footing -/

/-- Expressions that were written in loaded documents, and stores that only keep lambdas with such
bodies. -/
def origin (host : Host) (source : String → Expr → Prop) : Footing where
  host := host
  fits s := Documented source s ∧
    ∀ n v, s.state? n = some (.evaluated v) → ∀ c ∈ v.closures, Written source s c.body
  later s s' := ∀ n b, s.body? n = some b → s'.body? n = some b
  place s _ _ e := Written source s e
  known _ _ := True
  place_child he hinside := he.child hinside
  place_later hlater he := he.later hlater
  known_later _ h := h

theorem origin_lasts {host : Host} {source : String → Expr → Prop}
    (hfiles : host.FilesAmong source) :
    (origin host source).Lasts (Documented source) where
  fits_iff := Iff.rfl
  later hprecedes _ _ := hprecedes.body?
  same hbodies hbase := hbase.same hbodies
  file hbase hread hparse hfree := hbase.addAll (hfiles _ _ hread hparse) hfree
  opens {s n b} hbase hb := by
    have hwritten := fun e => @Documented.written source s hbase n b hb e
    unfold Footing.Opens
    cases htask : b.task with
    | expression e =>
      rw [htask] at hwritten
      exact hwritten e List.mem_cons_self
    | members members =>
      rw [htask] at hwritten
      exact ⟨fun _ he => hwritten _ (List.mem_map_of_mem he), fun _ _ _ => trivial⟩
  known := trivial

end LazyConfig
