-- Evaluation is faithful: an expression, run on a store that agrees with the library, results in
-- what it settles to. So what a store happens to keep or to have included never shows.
-- Main statement: what the bindings of the store evaluate, if this is so for requests and one level
-- further in.
import LazyConfig.Proofs.Document.Agreement
import LazyConfig.Proofs.Document.Footing

namespace LazyConfig.Library

open Store

variable {L : Library} {s : Store Suspension} {under : List String} {left : Nat}

/-! ## Firm ground -/

/-- Settled scopes and bindings that are there, in a store that agrees, asked for by some
bindings. -/
def footing (L : Library) (under : List String) : Footing where
  host := L.host
  fits s := L.Agrees s ∧ Disciplined s under
  later := Extends
  place s scopes _ _ := L.SettledAll s scopes
  known s n := s.contains n = true
  place_child h _ := h
  place_later hext h := h.extends hext
  known_later hext h := hext.contains h

/-- The scopes of a value are settled if those of the lambdas in it are. -/
theorem sound_eq_grounded (L : Library) (under : List String) :
    (L.footing under).Sound = L.Grounded := by
  funext s v
  refine propext ⟨fun h scope hscope => ?_, fun h c hc scope hscope => ?_⟩
  · obtain ⟨c, hc, hmem⟩ := (Value.mem_scopes v).mp hscope
    exact h c hc scope hmem
  · exact h scope ((Value.mem_scopes v).mpr ⟨c, hc, hscope⟩)

/-- What is faithful, as a judgement. -/
def IsFaithful (L : Library) (left : Nat) (under : List String) : Judgement :=
  fun _ good s x => L.Faithful good left s under x

/-- What evaluation is put together of is faithful. -/
theorem faithful_carries (L : Library) (left : Nat) (under : List String) :
    (L.footing under).Carries (L.IsFaithful left under) where
  pure hs ha := Faithful.pure hs.1 ha
  throw e hs := Faithful.throw hs.1 e
  bind hs hx hf :=
    Faithful.bind hs.2 hx fun a s' hs' hdisc' hext ha => hf a s' ⟨hs', hdisc'⟩ hext ha
  located span hx := Faithful.adapt hx fun e => by cases e <;> rfl
  contains name hs he hscope := faithful_contains hs.1 (he _ hscope) name
  loadFile path hs := faithful_loadFile hs.1 hs.2 path

/-- Requests for bindings, and evaluation one level further in, are faithful. -/
def FaithfulAt (L : Library) (left : Nat) : Prop :=
  ∀ under, (L.footing under).CarriesAt (L.IsFaithful left under)

theorem FaithfulAt.value (h : L.FaithfulAt left) (hs : L.Agrees s) (hdisc : Disciplined s under)
    {path : String} (hc : s.contains path = true) :
    L.Faithful L.Grounded left s under fun j => Attempt.value j path := by
  rw [← L.sound_eq_grounded under]
  exact (h under).value ⟨hs, hdisc⟩ hc

theorem faithful_task (hlevel : L.FaithfulAt left) (hs : L.Agrees s)
    (hdisc : Disciplined s under) {n : String} {b : Suspension} (hb : s.body? n = some b) :
    L.Faithful L.Grounded left s under (L.task b) := by
  have hopens : (L.footing under).Opens s b := by
    have hscopes := hs.holds.settled hb
    unfold Footing.Opens
    cases htask : b.task with
    | expression e => exact hscopes
    | members members =>
      exact ⟨fun _ _ => hscopes, fun key value hmem => hs.holds.contains_member hb htask hmem⟩
  rw [← L.sound_eq_grounded under]
  exact (hlevel under).task ⟨hs, hdisc⟩ hopens

end LazyConfig.Library
