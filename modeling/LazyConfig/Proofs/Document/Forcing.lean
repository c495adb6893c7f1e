-- Requests for bindings are faithful: a value that is kept was made by a forcing of the same
-- binding, and a forcing runs a body that is faithful one level further in.
-- Main statement: evaluation is faithful at every level.
import LazyConfig.Proofs.Document.Evaluation

namespace LazyConfig.Library

open Store

variable {L : Library} {s : Store Suspension} {under : List String} {α : Type} {left : Nat}
variable {good : Store Suspension → α → Prop}

/-! ## The end of a forcing -/

/-- A binding keeps a value that it means wherever it may be asked for. -/
theorem Agrees.keep (h : L.Agrees s) {name : String} (hp : s.state? name = some .inProgress)
    {v : Value} {kept : Store Suspension} (hfinish : s.finish name (.ok v) = (.ok v, kept))
    (hv : L.Grounded s v)
    (hmeans : ∀ names, name ∉ names → Unkept s names → L.Means names name (.ok v)) :
    L.Agrees kept ∧ L.Grounded kept v ∧
      ∀ names, Unkept kept names → L.Means names name (.ok v) := by
  have hext := extends_finish hp (.ok v)
  rw [hfinish] at hext
  have hname : kept.state? name = some (.evaluated v) := by
    rw [state?_finish_ok hfinish, if_pos rfl, hp, Option.map_some]
  have hgrounded : L.Grounded kept v := SettledAll.extends hv hext
  have hmeans' : ∀ names, Unkept kept names → L.Means names name (.ok v) := by
    intro names hnames
    exact hmeans names (fun hmem => hnames name hmem v hname) (hnames.earlier hext)
  refine ⟨h.later hext (h.holds.congr fun n => ?_) fun {n w} hw => ?_, hgrounded, hmeans'⟩
  · have hsame := body?_finish s name (.ok v) n
    rw [hfinish] at hsame
    exact hsame
  · by_cases hn : n = name
    · subst hn
      rw [hname, Option.some.injEq, BindingState.evaluated.injEq] at hw
      subst hw
      exact Or.inr ⟨hgrounded, hmeans'⟩
    · rw [state?_finish_ok hfinish, if_neg hn] at hw
      exact Or.inl hw

/-! ## Requests -/

/-- A forcing is faithful if its body is, asked for by one binding more. -/
theorem tells_forcing (hs : L.Agrees s) (hdisc : Disciplined s under) {name : String}
    {b : Suspension} (hr : s.reply name = .run b)
    (hbody : L.Tells L.Grounded (name :: under) (L.task b)
      ((s.start name).exec (behaviour L.host) (behaviour L.host b left))) :
    L.Tells L.Grounded under (fun j => Attempt.value j name)
      (s.value (behaviour L.host) left name) := by
  have hoffer : L.offer? name = some b := hs.holds.offered (body?_of_reply hr)
  have hstart := hdisc.start hr
  have hnot : name ∉ under := (List.nodup_cons.mp hstart.nodup).1
  have hend := (disciplined_exec (behaviour L.host) (behaviour L.host b left) hstart).1
  rw [value_of_run _ hr]
  generalize (s.start name).exec (behaviour L.host) (behaviour L.host b left) = out at hbody hend ⊢
  have hp : out.2.state? name = some .inProgress := (hend.mem_iff name).mpr List.mem_cons_self
  cases hbody with
  | error hagrees hsettles =>
    exact .error (hagrees.giveUp hp) (settles_value_iff.mpr (hsettles.means hoffer hnot))
  | resource hagrees h => exact .resource (hagrees.giveUp hp) h
  | @ok v s' hagrees hv hsettles =>
    show L.Tells L.Grounded under _ (s'.finish name (.ok v))
    rcases finish_ok_cases s' name v with ⟨e, he, hfinish⟩ | ⟨kept, hfinish⟩
    · rw [hfinish]
      exact .resource (hagrees.giveUp hp) he
    · have hmeans : ∀ names, name ∉ names → Unkept s' names → L.Means names name (.ok v) := by
        intro names hmem hnames
        have hall : Unkept s' (name :: names) := List.forall_mem_cons.mpr ⟨by simp [hp], hnames⟩
        exact (hsettles (name :: names) hall).means hoffer hmem
      obtain ⟨hkept, hgrounded, hmeans'⟩ := hagrees.keep hp hfinish hv hmeans
      rw [hfinish]
      exact .ok hkept hgrounded fun names hnames => settles_value_iff.mpr (hmeans' names hnames)

theorem faithful_value (hs : L.Agrees s) (hdisc : Disciplined s under) {name : String}
    (hc : s.contains name = true)
    (hbody : ∀ b, s.reply name = .run b → L.Tells L.Grounded (name :: under) (L.task b)
      ((s.start name).exec (behaviour L.host) (behaviour L.host b left))) :
    L.Faithful L.Grounded left s under fun j => Attempt.value j name := by
  show L.Tells L.Grounded under _ (s.value (behaviour L.host) left name)
  rw [contains_eq, Option.isSome_iff_exists] at hc
  obtain ⟨b, hf⟩ := hc
  have hstate : s.state? name = some b.state := by rw [state?, hf, Option.map_some]
  cases hb : b.state with
  | evaluated v =>
    rw [hb] at hstate
    rw [value_of_now _ (reply_evaluated hstate)]
    refine .ok hs (hs.grounded hstate) fun names hnames => ?_
    exact settles_value_iff.mpr (hs.means hstate names hnames)
  | inProgress =>
    rw [hb] at hstate
    rw [value_of_now _ (reply_inProgress hstate)]
    exact .error hs (settles_value_iff.mpr (means_cycle ((hdisc.mem_iff name).mp hstate)))
  | unevaluated =>
    rw [hb] at hstate
    by_cases hsteps : s.stepsLeft = 0
    · rw [value_of_now _ (reply_unevaluated hstate hsteps)]
      exact .resource hs rfl
    · have hr : s.reply name = .run b.body := reply_eq_run.mpr ⟨b, hf, hb, rfl, hsteps⟩
      exact tells_forcing hs hdisc hr (hbody b.body hr)

/-! ## All levels -/

theorem Faithful.inside {x y : Nat → Attempt α} (hx : L.Faithful good left s under x)
    (hy : ∀ j, y (j + 1) = x j) : L.Faithful good (left + 1) s under y := by
  unfold Faithful at hx ⊢
  rw [hy]
  generalize s.exec (behaviour L.host) (x left).run = out at hx ⊢
  cases hx with
  | error hagrees hsettles => exact .error hagrees (hsettles.inside hy)
  | resource hagrees h => exact .resource hagrees h
  | ok hagrees hgood hsettles =>
    exact .ok hagrees hgood fun names hnames => (hsettles names hnames).inside hy

/-- Evaluation is faithful at every level. -/
theorem faithfulAt (L : Library) (left : Nat) : L.FaithfulAt left := by
  induction left with
  | zero =>
    intro under
    refine ⟨L.faithful_carries 0 under, fun hs hc => ?_, fun count hs _ => .resource hs.1 rfl⟩
    rw [sound_eq_grounded]
    exact faithful_value hs.1 hs.2 hc fun b hr => .resource (hs.1.start hr) rfl
  | succ left ih =>
    intro under
    refine ⟨L.faithful_carries (left + 1) under, fun {s path} hs hc => ?_,
      fun {s frame e} count hs hready => ?_⟩
    · rw [sound_eq_grounded]
      apply faithful_value hs.1 hs.2 hc
      intro b hr
      have hbody : (s.start path).body? path = some b := by
        show (s.mark path .inProgress).body? path = some b
        rw [body?_mark, body?_of_reply hr]
      exact faithful_task ih (hs.1.start hr) (hs.2.start hr) hbody
    · apply Faithful.inside ((ih under).eval frame e hs hready count)
      intro j
      show evaluator L.host j frame e count = _
      rw [evaluator_eq]
      rfl

end LazyConfig.Library
