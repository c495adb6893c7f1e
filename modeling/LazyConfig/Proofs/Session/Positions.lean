-- Object literals in property position and in place. The root of a document is in property
-- position, and so are the properties of object literals that are; elements of arrays are in place.
-- Both are evaluated in ways of their own, which for literals that name nothing make no difference.
-- Main statement: a literal that names nothing is loaded as a document with the value that it has
-- as an element, and where no key is repeated it fails as a document just as it does as an element.
import LazyConfig.Proofs.Session.Properties
import LazyConfig.Value.Printer

namespace LazyConfig

open Store Evaluation

/-! ## What is printed -/

namespace Value

mutual

/-- Identities are not printed. -/
theorem text_bare : (v : Value) → v.bare.text = v.text
  | undefined | null | boolean _ | number _ | bigint _ | string _ | blob _ | function _ _ => rfl
  | array _ items => by rw [bare, text, text, itemTexts_bareItems items]
  | object _ [] => rfl
  | object _ ((key, v) :: rest) => by
    simp only [bare, bareEntries, text, entryTexts, text_bare v, entryTexts_bareEntries rest]

theorem itemTexts_bareItems : (items : List Value) → itemTexts (bareItems items) = itemTexts items
  | [] => rfl
  | v :: vs => by rw [bareItems, itemTexts, itemTexts, text_bare v, itemTexts_bareItems vs]

theorem entryTexts_bareEntries : (entries : List (String × Value)) →
    entryTexts (bareEntries entries) = entryTexts entries
  | [] => rfl
  | (key, v) :: rest => by
    rw [bareEntries, entryTexts, entryTexts, text_bare v, entryTexts_bareEntries rest]

end

end Value

/-! ## What requests come to -/

/-- Nothing that is limited ran out. -/
def Unstopped (r : Except EvalError Value) : Prop := ∀ e, r = .error e → e.isResource = false

/-- The error without its place. -/
def EvalError.unplaced : EvalError → EvalError
  | .runtime err => .runtime ⟨err.cause, none⟩
  | e => e

/-- The request fails with this error, wherever. -/
def FailsAs (r : Except EvalError Value) (e : EvalError) : Prop :=
  ∃ e', r = .error e' ∧ e'.unplaced = e.unplaced

/-- What a request answers when this is expected of it: a value that looks so, or an error with this
cause. Else it was stopped. -/
inductive ComesTo : Except RuntimeCause Value → Except EvalError Value → Prop
  | stopped {expected e} (h : e.isResource = true) : ComesTo expected (.error e)
  | value (v : Value) : ComesTo (.ok v.bare) (.ok v)
  | error (cause : RuntimeCause) (span : Span) :
      ComesTo (.error cause) (.error (.runtime ⟨cause, some span⟩))

section

variable {expected : Except RuntimeCause Value} {r : Except EvalError Value}

theorem ComesTo.eq_bare {v : Value} (h : ComesTo expected (.ok v)) : expected = .ok v.bare := by
  cases h with
  | value => rfl

theorem ComesTo.exists_value {w : Value} (h : ComesTo (.ok w) r) (hr : Unstopped r) :
    ∃ v, r = .ok v ∧ v.bare = w := by
  cases h with
  | stopped h =>
    rw [hr _ rfl] at h
    cases h
  | value v => exact ⟨v, rfl, rfl⟩

theorem ComesTo.failsAs_iff (h : ComesTo expected r) (hr : Unstopped r) (e : EvalError) :
    FailsAs r e ↔ ∃ cause, expected = .error cause ∧ e.unplaced = .runtime ⟨cause, none⟩ := by
  cases h with
  | stopped h =>
    rw [hr _ rfl] at h
    cases h
  | value v => simp [FailsAs]
  | error cause span =>
    constructor
    · rintro ⟨e', heq, he⟩
      cases heq
      exact ⟨cause, rfl, he.symm⟩
    · rintro ⟨cause', heq, he⟩
      cases heq
      exact ⟨_, rfl, he.symm⟩

end

theorem Value.eq_array_of_bare {v : Value} {looks : List Value}
    (h : v.bare = .array default looks) :
    ∃ id items, v = .array id items ∧ Value.bareItems items = looks := by
  cases v with
  | array id items =>
    cases h
    exact ⟨id, items, rfl, rfl⟩
  | _ => cases h

theorem Value.eq_object_of_bare {v : Value} {looks : Object Value}
    (h : v.bare = .object default looks) :
    ∃ (id : Identity) (entries : Object Value),
      v = .object id entries ∧ Value.bareEntries entries = looks := by
  cases v with
  | object id entries =>
    cases h
    exact ⟨id, entries, rfl, rfl⟩
  | _ => cases h

theorem Value.eq_singleton_of_bare {items : List Value} {w : Value}
    (h : Value.bareItems items = [w]) :
    ∃ v, items = [v] ∧ v.bare = w := by
  rw [bareItems_eq_map, List.map_eq_singleton_iff] at h
  exact h

/-- An object literal that names nothing comes to an object, if it comes to a value. -/
theorem Expr.verdict_object {literal : Expr}
    (hobject : ∃ span members, literal = .object span members) {w : Value}
    (h : literal.verdict = .ok w) : ∃ looks : Object Value, w = .object default looks := by
  obtain ⟨span, members, rfl⟩ := hobject
  rw [Expr.verdict] at h
  cases hverdicts : Member.verdicts members with
  | error cause =>
    rw [hverdicts] at h
    cases h
  | ok entries =>
    rw [hverdicts] at h
    cases h
    exact ⟨_, rfl⟩

/-- A document whose paths are free is loaded, and a request that comes to what is expected answers
so. -/
theorem Session.comesTo_of_meets {s : Session} {bytes : Bytes} {root : Expr} {name : String}
    (hparse : parse s.host.maxParseDepth bytes = .ok root) (hnodup : (root.declared name).Nodup)
    (hfree : ∀ path ∈ root.declared name, s.store.contains path = false) :
    ∃ loaded, s.loadSource name bytes = (.ok (), loaded) ∧
      ∀ expected, (∀ p : Stage, Waiting p.store (documentBindings name root) →
        Meets s.host (liftM (Attempt.value s.host.maxDepth name)) p
          (Value.KeptAs p name (root.declared name)) expected) →
            ComesTo expected (loaded.value name).1 := by
  have hpaths := map_path_documentBindings name root
  obtain ⟨hload, hwaiting⟩ := Session.loadSource_free name hparse (hpaths ▸ hnodup) (hpaths ▸ hfree)
  refine ⟨_, hload, fun expected hmeets => ?_⟩
  generalize s.store.addAll (documentBindings name root) = store at hwaiting
  show ComesTo expected (store.value (behaviour s.host) s.host.maxDepth name).1
  cases hmeets ⟨store, 0⟩ hwaiting with
  | stopped hresource h =>
    rw [fails_value.mp h]
    exact .stopped hresource
  | value h hkept =>
    rw [(succeeds_value.mp h).1, ← hkept.bare]
    exact .value _
  | error h =>
    rw [fails_value.mp h]
    exact .error _ _

/-- An array of one element that names nothing is loaded under a free name, and answers as the
element does in place. -/
theorem Session.comesTo_element {s : Session} {bytes : Bytes} {span : Span} {element : Expr}
    {name : String} (hparse : parse s.host.maxParseDepth bytes = .ok (.array span [element]))
    (hinert : element.Inert) (hfree : s.store.contains name = false) :
    ∃ loaded, s.loadSource name bytes = (.ok (), loaded) ∧
      ComesTo (element.verdict >>= fun v => .ok (.array default [v])) (loaded.value name).1 := by
  have harray : (Expr.array span [element]).Inert := by
    rw [Expr.Inert, Expr.throughout_iff_everywhere, Expr.everywhere_iff]
    refine ⟨rfl, List.forall_mem_singleton.mpr ?_⟩
    exact Expr.throughout_iff_everywhere.mp hinert
  have hnodup : ((Expr.array span [element]).declared name).Nodup := List.nodup_singleton name
  obtain ⟨loaded, hload, hcomes⟩ := Session.comesTo_of_meets hparse hnodup
    (List.forall_mem_singleton.mpr hfree)
  refine ⟨loaded, hload, ?_⟩
  have hverdict : (Expr.array span [element]).verdict =
      (element.verdict >>= fun v => .ok (.array default [v])) := by
    rw [Expr.verdict, Expr.verdicts]
    cases element.verdict <;> rfl
  rw [← hverdict]
  exact hcomes _ fun p hwaiting => meets_single (by simp) harray hwaiting _

/-- An object literal that names nothing: loaded as a document it has the value that it has as an
element of an array, printed the same, repeated keys included. If no key is repeated in any literal
it fails as a document just as it does as an element, but for the place of the error. In both cases
its paths are to be distinct, and what is limited is not to run out. -/
theorem positions_agree {s t : Session} {bytes bytes' : Bytes} {span : Span}
    {literal element : Expr} {name name' : String}
    (hobject : ∃ span members, literal = .object span members)
    (hdocument : parse t.host.maxParseDepth bytes = .ok literal)
    (harray : parse s.host.maxParseDepth bytes' = .ok (.array span [element]))
    (hsame : element.bare = literal.bare) (hinert : literal.Inert)
    (hpaths : (literal.declared name).Nodup)
    (hfree : ∀ path ∈ literal.declared name, t.store.contains path = false)
    (hfree' : s.store.contains name' = false) :
    ∃ loaded loaded', t.loadSource name bytes = (.ok (), loaded) ∧
      s.loadSource name' bytes' = (.ok (), loaded') ∧
      let root := (loaded.value name).1
      let inline := (loaded'.value name').1
      (Unstopped root → ∀ found, inline = .ok found →
        ∃ (id id' id'' : Identity) (entries entries' : Object Value),
          found = .array id [.object id' entries] ∧ root = .ok (.object id'' entries') ∧
            entries'.keys = entries.keys ∧ Value.bareEntries entries' = Value.bareEntries entries ∧
              (Value.object id'' entries').text = (Value.object id' entries).text) ∧
      (literal.Throughout Expr.repeatsNoKey → Unstopped root → Unstopped inline →
        ∀ e, FailsAs inline e ↔ FailsAs root e) := by
  have helement := (Expr.throughout_congr Expr.namesNothing_bare hsame).mpr hinert
  obtain ⟨loaded', hload', hinline⟩ := Session.comesTo_element harray helement hfree'
  obtain ⟨loaded, hload, hcomes⟩ := Session.comesTo_of_meets hdocument hpaths hfree
  rw [Expr.verdict_congr hsame] at hinline
  have hroot : literal.Steady → ComesTo literal.verdict (loaded.value name).1 := fun hsteady =>
    hcomes _ fun p hwaiting => meets_value t.host literal hinert hsteady hpaths p hwaiting _
  refine ⟨loaded, loaded', hload, hload', ?_, ?_⟩
  · intro hunstopped found hfound
    have hbare := (hfound ▸ hinline).eq_bare
    cases hverdict : literal.verdict with
    | error cause =>
      rw [hverdict] at hbare
      cases hbare
    | ok w =>
      rw [hverdict] at hbare
      obtain ⟨id, items, rfl, hitems⟩ := Value.eq_array_of_bare (Except.ok.inj hbare).symm
      obtain ⟨looks, rfl⟩ := Expr.verdict_object hobject hverdict
      have hcame := hroot (.inl ⟨_, hverdict⟩)
      rw [hverdict] at hcame
      obtain ⟨v', hv', hlooks'⟩ := hcame.exists_value hunstopped
      obtain ⟨id'', entries', rfl, hentries'⟩ := Value.eq_object_of_bare hlooks'
      obtain ⟨v, rfl, hv⟩ := Value.eq_singleton_of_bare hitems
      obtain ⟨id', entries, rfl, hentries⟩ := Value.eq_object_of_bare hv
      refine ⟨id, id', id'', entries, entries', rfl, hv', ?_, hentries'.trans hentries.symm, ?_⟩
      · rw [← Value.keys_bareEntries entries', ← Value.keys_bareEntries entries,
          hentries, hentries']
      · rw [← Value.text_bare, ← Value.text_bare (.object id' entries), hlooks', hv]
  · intro hkeys hunstopped hunstopped' e
    rw [(hroot (.inr hkeys)).failsAs_iff hunstopped, hinline.failsAs_iff hunstopped']
    refine exists_congr fun cause => and_congr_left fun _ => ?_
    cases literal.verdict with
    | ok v => exact iff_of_false nofun nofun
    | error cause' => exact Iff.rfl

/-- A literal with a repeated key. -/
def repeating : Bytes := Utf8.encode "\x7ba:true,b:\x7ba:1n\x7d,a:'x'\x7d"

/-- The same in brackets. -/
def repeatingListed : Bytes := Utf8.encode "[\x7ba:true,b:\x7ba:1n\x7d,a:'x'\x7d]"

/-- What is read, from an offset on. -/
def repeatingFrom (n : Nat) : Expr :=
  .object ⟨n, n + 23⟩ [.property "a" (.boolean ⟨n + 3, n + 7⟩ true),
    .property "b" (.object ⟨n + 10, n + 16⟩ [.property "a" (.number ⟨n + 13, n + 15⟩ "1n")]),
    .property "a" (.string ⟨n + 19, n + 22⟩ "x")]

/-- The literal has the same value in both positions. -/
theorem positions_agree_on_repeating :
    let s := Session.new { storage := .memory [] } {}
    ∃ loaded loaded', s.loadSource "m" repeating = (.ok (), loaded) ∧
      s.loadSource "l" repeatingListed = (.ok (), loaded') ∧
      ∃ (id id' id'' : Identity) (entries entries' : Object Value),
        (loaded'.value "l").1 = .ok (.array id [.object id' entries]) ∧
          (loaded.value "m").1 = .ok (.object id'' entries') ∧
            Value.bareEntries entries' = Value.bareEntries entries := by
  intro s
  have hdocument : parse s.host.maxParseDepth repeating = .ok (repeatingFrom 0) := by decide +kernel
  have hlisted : parse s.host.maxParseDepth repeatingListed =
      .ok (.array ⟨0, 25⟩ [repeatingFrom 1]) := by
    decide +kernel
  have hpaths : ((repeatingFrom 0).declared "m").Nodup := by decide
  have hfree : s.store.contains "l" = false := rfl
  obtain ⟨loaded, loaded', hload, hload', hvalue, _⟩ :=
    positions_agree ⟨_, _, rfl⟩ hdocument hlisted rfl
    (by decide) hpaths (by decide) hfree
  have hroot : ((s.loadSource "m" repeating).2.value "m").1.isOk = true := by decide +kernel
  have hinline : ((s.loadSource "l" repeatingListed).2.value "l").1.isOk = true := by decide +kernel
  rw [hload] at hroot
  rw [hload'] at hinline
  have hunstopped : Unstopped (loaded.value "m").1 := by
    intro e he
    rw [he] at hroot
    cases hroot
  cases hfound : (loaded'.value "l").1 with
  | error e =>
    rw [hfound] at hinline
    cases hinline
  | ok found =>
    obtain ⟨id, id', id'', entries, entries', rfl, hobject, _, hsame, _⟩ :=
      hvalue hunstopped found hfound
    exact ⟨loaded, loaded', hload, hload', id, id', id'', entries, entries', hfound, hobject, hsame⟩

end LazyConfig
