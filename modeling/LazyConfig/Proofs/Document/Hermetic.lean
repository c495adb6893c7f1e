-- Files are hermetic. What the bindings of a file evaluate to is up to files: they are evaluated in
-- scopes of files, which nothing else is bound in, and ask for bindings of files only. So they keep
-- to a contract with the bindings of all other documents, which these keep to whatever they
-- evaluate.
-- Main statement: every body honors the contract.
import LazyConfig.Proofs.Document.Filed
import LazyConfig.Proofs.Document.Footing

namespace LazyConfig

open Store

variable {α β : Type}

namespace Library

variable {L : Library} {s s' : Store Suspension} {name : String}

/-! ## Evaluation in files -/

/-- Expressions in scopes of files that are loaded, and the bindings of these. -/
def shelf (L : Library) : Footing where
  host := L.host
  fits := L.Filed
  later := Extends
  place s scopes _ _ := ∀ scope ∈ scopes, L.Shelved s scope
  known s n := L.host.InFile n ∧ s.contains n = true
  place_child h _ := h
  place_later hext h scope hscope := (h scope hscope).extends hext
  known_later hext h := ⟨h.1, hext.contains h.2⟩

/-- What the outcome of a computation tells about it, unless it ran out of something. -/
def Reveals (L : Library) (good : Store Suspension → α → Prop) (x : Nat → Attempt α)
    (s : Store Suspension) : Except EvalError α → Prop
  | .ok a => good s a ∧ L.Reads x a
  | .error e => e.isResource = true ∨ L.Fails x

/-- The computation with `left` levels, run on the store, honors the contract: it asks for bindings
of files that it needs, and its outcome is the one that it has by itself. -/
def Secluded (L : Library) (left : Nat) : Judgement := fun _ good s x =>
  L.contract.Honors (fun n => L.host.InFile n ∧ L.Needs x n)
    (fun s' r => L.Filed s' ∧ L.Reveals good x s' r) (x left).run s

variable {left : Nat} {good : Store Suspension → α → Prop} {good' : Store Suspension → β → Prop}

theorem secluded_pure (hs : L.Filed s) {a : α} (ha : good s a) :
    L.Secluded left α good s fun _ => pure a :=
  ⟨hs, ha, reads_of_given fun _ => rfl⟩

theorem secluded_throw (hs : L.Filed s) (e : EvalError) :
    L.Secluded left α good s fun _ => throw e :=
  ⟨hs, Or.inr (fails_of_given (e := e) fun _ => rfl)⟩

theorem secluded_bind {x : Nat → Attempt α} {f : Nat → α → Attempt β}
    (hx : L.Secluded left α good s x)
    (hf : ∀ a s', L.Filed s' → s.Extends s' → good s' a →
      L.Secluded left β good' s' fun j => f j a) :
    L.Secluded left β good' s fun j => x j >>= f j := by
  have hasks : ∀ n, L.host.InFile n ∧ L.Needs x n →
      L.host.InFile n ∧ L.Needs (fun j => x j >>= f j) n := fun n hn => ⟨hn.1, Needs.bind hn.2⟩
  apply (hx.mono hasks fun _ _ _ h => h).bind
  rintro s' r hext ⟨hs', hreveals⟩
  cases r with
  | error e => exact ⟨hs', hreveals.imp_right Fails.bind⟩
  | ok a =>
    obtain ⟨ha, hreads⟩ := hreveals
    have hfa := hf a s' hs' hext ha
    apply Contract.Honors.mono hfa
    · exact fun n hn => ⟨hn.1, hreads.bind_needs hn.2⟩
    · rintro s'' r _ ⟨hs'', hreveals'⟩
      refine ⟨hs'', ?_⟩
      cases r with
      | ok b => exact ⟨hreveals'.1, hreads.bind hreveals'.2⟩
      | error e => exact hreveals'.imp_right hreads.bind_fails

theorem secluded_located {x : Nat → Attempt α} (span : Span) (hx : L.Secluded left α good s x) :
    L.Secluded left α good s fun j => ExceptT.adapt (fun e => e.located span) (x j) := by
  have hasks : ∀ n, L.host.InFile n ∧ L.Needs x n → L.host.InFile n ∧
      L.Needs (fun j => ExceptT.adapt (fun e => e.located span) (x j)) n :=
    fun n hn => ⟨hn.1, fun hgiven => hn.2 (given_located_ok.mp hgiven)⟩
  apply (hx.mono hasks fun _ _ _ h => h).bind
  rintro s' r _ ⟨hs', hreveals⟩
  cases r with
  | ok a =>
    obtain ⟨ha, hreads⟩ := hreveals
    obtain ⟨enough, henough⟩ := hreads.enough
    refine ⟨hs', ha, ⟨enough, fun k hk j hj => given_located_ok.mpr (henough k hk j hj)⟩, ?_⟩
    exact fun hgiven => hreads.only (given_located_ok.mp hgiven)
  | error e =>
    refine ⟨hs', hreveals.imp (fun he => ?_) fun hfails k j a ha => ?_⟩
    · cases e <;> exact he
    · exact hfails k j a (given_located_ok.mp ha)

theorem secluded_value (hs : L.Filed s) (hknown : L.shelf.known s name) :
    L.Secluded left Value L.shelf.Sound s fun j => Attempt.value j name := by
  obtain ⟨hfile, hc⟩ := hknown
  refine ⟨hs, ⟨hfile, fun hgiven => ⟨_, hgiven⟩⟩, fun s' r hext hs' hanswers => ⟨hs', ?_⟩⟩
  cases r with
  | ok v =>
    have hyields := hs'.yields hfile hanswers
    obtain ⟨enough, henough⟩ := hyields.enough
    refine ⟨hs'.shelved hfile hanswers, ⟨enough, fun k hk _ _ => henough k hk⟩, ?_⟩
    exact fun hgiven => hyields.only hgiven
  | error e =>
    refine hanswers.imp_right fun hbarren k j v hv => ?_
    exact hbarren hfile (hext.contains hc) k v hv

theorem secluded_carries (L : Library) (left : Nat) : L.shelf.Carries (L.Secluded left) where
  pure hs ha := secluded_pure hs ha
  throw e hs := secluded_throw hs e
  bind _ hx hf := secluded_bind hx hf
  located := secluded_located
  contains {s scopes names e scope} name hs he hscope := by
    have hshelved := he scope hscope
    have hbound := hs.contains_eq hshelved name
    refine ⟨hs, hs, fun hfound => ⟨?_, hfound⟩, reads_of_given fun k => ?_⟩
    · obtain ⟨bytes, hread, hbelow, _⟩ := hshelved
      exact ⟨bytes, hread, hbelow.child name⟩
    · rw [given_contains, hbound]
  loadFile path hs := by
    apply (honors_loadFile _ hs path).mono fun _ hn => hn
    rintro s' r _ ⟨hs', hgiven, hknown⟩
    refine ⟨hs', ?_⟩
    cases r with
    | ok name => exact ⟨hknown name rfl, reads_of_given fun _ => hgiven _⟩
    | error e => exact Or.inr (fails_of_given fun _ => hgiven _)

theorem Secluded.inside {x y : Nat → Attempt α} (hx : L.Secluded left α good s x)
    (hy : ∀ j, y (j + 1) = x j) (hzero : ∀ k b, L.given (L.yield k) (y 0) ≠ .ok b) :
    L.Secluded (left + 1) α good s y := by
  unfold Secluded at hx ⊢
  rw [hy]
  apply hx.mono
  · exact fun n hn => ⟨hn.1, Needs.inside hn.2 hy hzero⟩
  · rintro s' r _ ⟨hs', hreveals⟩
    refine ⟨hs', ?_⟩
    cases r with
    | ok a => exact ⟨hreveals.1, hreveals.2.inside hy hzero⟩
    | error e => exact hreveals.imp_right fun hfails => hfails.inside hy hzero

/-- Evaluation in files is secluded, at every level. -/
theorem secluded_at (L : Library) (left : Nat) : L.shelf.CarriesAt (L.Secluded left) := by
  induction left with
  | zero =>
    refine ⟨L.secluded_carries 0, secluded_value, fun count hs _ => ?_⟩
    exact ⟨hs, Or.inl rfl⟩
  | succ left ih =>
    refine ⟨L.secluded_carries (left + 1), secluded_value, fun {s frame e} count hs hready => ?_⟩
    apply Secluded.inside (ih.eval frame e hs hready count)
    · intro j
      show evaluator L.host j frame e count = _
      rw [evaluator_eq]
      rfl
    · exact nofun

/-! ## Evaluation in other documents -/

/-- Whatever it is answered, the computation keeps the contract when it asks. -/
def Keeps (L : Library) (x : Attempt α) : Prop :=
  ∀ s, L.Filed s → L.contract.Honors (fun _ => True) (fun s' _ => L.Filed s') x.run s

theorem Keeps.bind {x : Attempt α} {f : α → Attempt β} (hx : L.Keeps x) (hf : ∀ a, L.Keeps (f a)) :
    L.Keeps (x >>= f) := by
  intro s hs
  apply (hx s hs).bind
  intro s' r _ hs'
  cases r with
  | ok a => exact hf a s' hs'
  | error e => exact hs'

theorem keeps_composes (L : Library) : Composes (fun _ x _ => L.Keeps x) L.host L.host where
  pure _ _ hs := hs
  throw _ _ hs := hs
  bind := Keeps.bind
  located _ hx s hs := (hx s hs).bind fun _ _ _ hs' => hs'
  contains _ _ hs := ⟨hs, hs⟩
  loadFile path s hs := (honors_loadFile _ hs path).mono (fun _ hn => hn) fun _ _ _ h => h.1
  readText path s hs := by
    unfold Attempt.readText
    cases L.host.storage.readText path <;> exact hs
  readBytes path s hs := by
    unfold Attempt.readBytes
    cases L.host.storage.readBytes path <;> exact hs

theorem keeps_value (left : Nat) (path : String) : L.Keeps (Attempt.value left path) :=
  fun _ hs => ⟨hs, trivial, fun _ _ _ hs' _ => hs'⟩

theorem keeps_at (L : Library) (left : Nat) :
    HoldsAt (fun _ x _ => L.Keeps x) L.host L.host left left := by
  induction left with
  | zero => exact ⟨L.keeps_composes, keeps_value 0, fun _ _ _ _ hs => hs⟩
  | succ left ih => exact ⟨L.keeps_composes, keeps_value (left + 1), ih.inside⟩

/-! ## Bodies -/

/-- The bodies of a file are evaluated in the file, and so are the properties of its object
literals. -/
theorem Filed.opens (hs : L.Filed s) (hfile : L.host.InFile name) {b : Suspension}
    (hb : s.body? name = some b) : L.shelf.Opens s b := by
  obtain ⟨bytes, hread, hbelow⟩ := hfile
  have hloaded : s.contains (L.host.contentName bytes) = true := by
    by_contra hnot
    rw [hs.body hread hbelow, if_neg hnot] at hb
    cases hb
  obtain ⟨hoffers, hpath⟩ := offer?_eq_some.mp (hs.offer ⟨bytes, hread, hbelow⟩ hb)
  obtain ⟨root, hfile, hmem⟩ := hoffers.of_below hread (hpath ▸ hbelow)
  have hwithin := within_documentBindings hmem
  have hscopes : ∀ scope ∈ b.scopes, L.Shelved s scope :=
    fun scope hscope => ⟨bytes, hread, hwithin.scopes scope hscope, hloaded⟩
  unfold Footing.Opens
  cases htask : b.task with
  | expression e => exact hscopes
  | members members =>
    refine ⟨fun _ _ => hscopes, fun key value hproperty => ?_⟩
    obtain ⟨c, hc, hcpath⟩ :=
      complete_documentBindings _ root b hmem members key value htask hproperty
    have hshelved : L.Shelved s b.path := ⟨bytes, hread, hwithin.path, hloaded⟩
    refine ⟨⟨bytes, hread, hwithin.path.child key⟩, ?_⟩
    rw [hs.contains_eq hshelved]
    exact bound_iff.mpr ⟨c, .file hfile hc, hcpath⟩

/-- A body of a file asks for what it needs, and its outcome is what its binding evaluates to. -/
theorem honors_file {b : Suspension} (hs : L.Filed s) (hfile : L.host.InFile name)
    (hb : s.body? name = some b) (left : Nat) :
    L.contract.Honors (L.contract.asks (some name)) (L.contract.ends (some name))
      (behaviour L.host b left) s := by
  have hoffer := hs.offer hfile hb
  cases left with
  | zero => exact ⟨hs, fun _ => Or.inl rfl⟩
  | succ left =>
    have htask : L.Secluded left Value L.shelf.Sound s (L.task b) :=
      (L.secluded_at left).task hs (hs.opens hfile hb)
    apply Contract.Honors.mono htask
    · exact fun n hn _ => ⟨hn.1, Needs.links hoffer hn.2⟩
    · rintro s' r _ ⟨hs', hreveals⟩
      refine ⟨hs', fun _ => ?_⟩
      cases r with
      | ok v => exact ⟨hreveals.1, hreveals.2.yields hoffer⟩
      | error e => exact hreveals.imp_right fun hfails => hfails.barren hoffer

/-- A body of another document. -/
theorem honors_other {b : Suspension} (hs : L.Filed s) (hfile : ¬ L.host.InFile name) (left : Nat) :
    L.contract.Honors (L.contract.asks (some name)) (L.contract.ends (some name))
      (behaviour L.host b left) s := by
  have hkeeps : L.Keeps (ExceptT.mk (behaviour L.host b left)) := by
    cases left with
    | zero => exact fun s hs => hs
    | succ left => exact (L.keeps_at left).behaviour b
  apply (hkeeps s hs).mono
  · exact fun n _ hin => absurd hin hfile
  · exact fun s' r _ hs' => ⟨hs', fun hin => absurd hin hfile⟩

/-! ## Circles -/

/-- Of bindings that were asked for one by the next, each in a file leads to the one that was asked
for last. -/
theorem linked_files {active : List String} (hlinked : L.contract.Linked active) {name : String}
    (hasks : L.contract.asks active.head? name) {owner : String} (howner : owner ∈ active)
    (hfile : L.host.InFile owner) :
    L.host.InFile name ∧ ∀ {k v}, L.yield k owner = .ok v →
      ∃ k' < k, ∃ w, L.yield k' name = .ok w := by
  induction active generalizing name with
  | nil => cases howner
  | cons caller callers ih =>
    have hstep : L.host.InFile caller → L.host.InFile name ∧ ∀ {k v}, L.yield k caller = .ok v →
        ∃ k' < k, ∃ w, L.yield k' name = .ok w := by
      intro hcaller
      obtain ⟨hname, hlinks⟩ := hasks hcaller
      refine ⟨hname, fun {k v} hv => ?_⟩
      cases k with
      | zero => cases hv
      | succ k => exact ⟨k, Nat.lt_succ_self k, hlinks hv⟩
    rcases List.mem_cons.mp howner with rfl | hmem
    · exact hstep hfile
    · obtain ⟨hcaller, hleads⟩ := ih hlinked.2 hlinked.1 hmem
      obtain ⟨hname, hleads'⟩ := hstep hcaller
      refine ⟨hname, fun hv => ?_⟩
      obtain ⟨k', hlt, w, hw⟩ := hleads hv
      obtain ⟨k'', hlt', hw'⟩ := hleads' hw
      exact ⟨k'', Nat.lt_trans hlt' hlt, hw'⟩

/-- A request that needs no body is answered as agreed. A cycle is a circle of bindings that need
one another. -/
theorem answers_now {active : List String} {r : Except EvalError Value}
    (hdisc : Disciplined s active) (hlinked : L.contract.Linked active)
    (hasks : L.contract.asks active.head? name) (hr : s.reply name = .now r) :
    L.contract.answers s name r := by
  unfold reply at hr
  cases hf : s.find? name with
  | none =>
    rw [hf] at hr
    obtain rfl := Reply.now.inj hr
    refine Or.inr fun _ hc => ?_
    rw [contains_eq, hf] at hc
    cases hc
  | some b =>
    have hstate : s.state? name = some b.state := by rw [state?, hf, Option.map_some]
    rw [hf] at hr
    cases hb : b.state with
    | evaluated v =>
      simp only [hb, Reply.now.injEq] at hr
      subst hr
      rw [hb] at hstate
      exact hstate
    | inProgress =>
      simp only [hb, Reply.now.injEq] at hr
      subst hr
      refine Or.inr fun hfile _ => barren_of_circle ?_
      exact (linked_files hlinked hasks ((hdisc.mem_iff name).mp (hb ▸ hstate)) hfile).2
    | unevaluated =>
      by_cases hsteps : s.stepsLeft = 0
      · simp only [hb, hsteps, if_true, Reply.now.injEq] at hr
        subst hr
        exact Or.inl rfl
      · simp [hb, hsteps] at hr

/-- The end of a forcing. -/
theorem answers_finish {r : Except EvalError Value} (hp : s.state? name = some .inProgress)
    (hends : L.contract.ends (some name) s r) :
    L.Filed (s.finish name r).2 ∧
    L.contract.answers (s.finish name r).2 name (s.finish name r).1 := by
  obtain ⟨hs, htells⟩ := hends
  cases r with
  | error e =>
    refine ⟨hs.giveUp hp, ?_⟩
    by_cases hfile : L.host.InFile name
    · exact (htells hfile).imp_right fun hbarren _ _ => hbarren
    · exact Or.inr fun hin => absurd hin hfile
  | ok v =>
    rcases finish_ok_cases s name v with ⟨e, he, hfinish⟩ | ⟨kept, hfinish⟩
    · rw [hfinish]
      exact ⟨hs.giveUp hp, Or.inl he⟩
    · have hext := extends_finish hp (.ok v)
      have hbody := body?_finish s name (.ok v)
      rw [hfinish] at hext hbody ⊢
      have hstate : kept.state? name = some (.evaluated v) := by
        rw [state?_finish_ok hfinish, if_pos rfl, hp, Option.map_some]
      refine ⟨hs.later hext (fun n _ => hbody n) fun {n w} hfile hw => ?_, hstate⟩
      by_cases hn : n = name
      · subst hn
        rw [hstate, Option.some.injEq, BindingState.evaluated.injEq] at hw
        subst hw
        obtain ⟨hshelved, hyields⟩ := htells hfile
        exact Or.inr ⟨fun c hc scope hscope => (hshelved c hc scope hscope).extends hext, hyields⟩
      · rw [state?_finish_ok hfinish, if_neg hn] at hw
        exact Or.inl hw

/-! ## The law of bodies -/

/-- All bodies honor the contract, those of files and those of other documents. -/
theorem contract_kept (L : Library) : L.contract.Kept (behaviour L.host) where
  now _ hdisc hlinked hasks hr := answers_now hdisc hlinked hasks hr
  finish := answers_finish
  body {s n b} left hs hr := by
    have hs' := hs.start hr
    have hb : (s.start n).body? n = some b := by
      show (s.mark n .inProgress).body? n = some b
      rw [body?_mark, body?_of_reply hr]
    by_cases hfile : L.host.InFile n
    · exact honors_file hs' hfile hb left
    · exact honors_other hs' hfile left

end Library

end LazyConfig
