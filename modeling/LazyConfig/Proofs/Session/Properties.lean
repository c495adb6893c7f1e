-- What is in property position when it names nothing. The properties of an object literal are
-- bindings of their own, which are asked for key by key, and of properties with one key only the
-- last is bound. Still the object comes to what the literal comes to in place.
-- Main statement: asked for the path of an expression that names nothing, a store in which its
-- bindings wait comes to what the expression comes to in place, if that is a value or no key is
-- repeated.
import LazyConfig.Proofs.Document.Inert
import LazyConfig.Proofs.Document.Members
import LazyConfig.Proofs.Session.Constants
import Mathlib.Data.List.Pairwise

namespace LazyConfig

open Store Evaluation

/-! ## Repeated keys -/

/-- Whether this is no object literal with two properties of one key. -/
def Expr.repeatsNoKey : Expr → Bool
  | .object _ members => (members.filterMap Member.key?).Nodup
  | _ => true

/-- The entries of properties, when it is known what each comes to. -/
def Member.gather (look : String → Expr → Except RuntimeCause Value) :
    List Member → Except RuntimeCause (List (String × Value))
  | [] => .ok []
  | .property key value :: later => do
    let v ← look key value
    return (key, v) :: (← Member.gather look later)
  | .spread _ :: later => Member.gather look later

theorem Member.verdicts_eq_gather (members : List Member) :
    Member.verdicts members = Member.gather (fun _ e => e.verdict) members := by
  induction members with
  | nil => rfl
  | cons m later ih => cases m <;> simp only [Member.verdicts, Member.gather, ih]

theorem Member.gather_congr {look look' : String → Expr → Except RuntimeCause Value}
    {members : List Member} (h : ∀ key e, .property key e ∈ members → look key e = look' key e) :
    Member.gather look members = Member.gather look' members := by
  induction members with
  | nil => rfl
  | cons m later ih =>
    have hlater := ih fun key e hmem => h key e (List.mem_cons_of_mem _ hmem)
    cases m with
    | property key e => simp only [Member.gather, hlater, h key e List.mem_cons_self]
    | spread e => simp only [Member.gather, hlater]

/-- What the last property with the key comes to. -/
def Member.lastVerdict (members : List Member) (key : String) : Except RuntimeCause Value :=
  ((lastValue? key members).map Expr.verdict).getD (.ok .undefined)

theorem lastValue?_eq_none_of_notMem {key : String} {members : List Member}
    (h : key ∉ members.filterMap Member.key?) : lastValue? key members = none := by
  cases hvalue : lastValue? key members with
  | none => rfl
  | some e =>
    have hmem : key ∈ members.filterMap Member.key? :=
      List.mem_filterMap.mpr ⟨.property key e, lastValue?_mem hvalue, rfl⟩
    exact absurd hmem h

theorem exists_lastValue? {members : List Member} {key : String} {e : Expr}
    (h : .property key e ∈ members) : ∃ last, lastValue? key members = some last := by
  refine Option.ne_none_iff_exists'.mp fun hnone => ?_
  rw [lastValue?_eq_none, isOverridden, List.any_eq_false] at hnone
  exact hnone _ h (by simp [Member.key?])

/-- A key that is not repeated has one value. -/
theorem lastValue?_of_nodup {members : List Member} (h : (members.filterMap Member.key?).Nodup)
    {key : String} {e : Expr} (hmem : .property key e ∈ members) :
    lastValue? key members = some e := by
  induction members with
  | nil => cases hmem
  | cons m later ih =>
    cases m with
    | spread e' =>
      rcases List.mem_cons.mp hmem with heq | hmem
      · cases heq
      · exact ih h hmem
    | property other value =>
      rw [List.filterMap_cons] at h
      obtain ⟨hnew, hlater⟩ := List.nodup_cons.mp h
      rcases List.mem_cons.mp hmem with heq | hmem
      · cases heq
        rw [lastValue?, lastValue?_eq_none_of_notMem hnew, Option.none_or, if_pos rfl]
      · rw [lastValue?, ih hlater hmem, Option.some_or]

theorem Member.verdicts_property {key : String} {value : Expr} {later : List Member}
    {entries : List (String × Value)}
    (h : Member.verdicts (.property key value :: later) = .ok entries) :
    ∃ v rest, value.verdict = .ok v ∧ Member.verdicts later = .ok rest ∧
      entries = (key, v) :: rest := by
  rw [Member.verdicts] at h
  cases hv : value.verdict with
  | error cause =>
    rw [hv] at h
    cases h
  | ok v =>
    cases hrest : Member.verdicts later with
    | error cause =>
      rw [hv, hrest] at h
      cases h
    | ok rest =>
      rw [hv, hrest] at h
      cases h
      exact ⟨v, rest, rfl, rfl, rfl⟩

/-- Where all properties come to values, the last property with a key comes to the last value with
it. -/
theorem map_verdict_lastValue? {members : List Member} {entries : List (String × Value)}
    (h : Member.verdicts members = .ok entries) (key : String) :
    (lastValue? key members).map Expr.verdict = (lastUnder? key entries).map .ok := by
  induction members generalizing entries with
  | nil =>
    cases h
    rfl
  | cons m later ih =>
    cases m with
    | spread e => exact ih h
    | property other value =>
      obtain ⟨v, rest, hv, hrest, rfl⟩ := Member.verdicts_property h
      rw [lastValue?, lastUnder?_cons, Option.map_or, Option.map_or, ih hrest]
      by_cases hkey : other = key
      · simp [hkey, hv]
      · simp [hkey, Ne.symm hkey]

theorem lastVerdict_of_ok {members : List Member} {entries : List (String × Value)}
    (h : Member.verdicts members = .ok entries) (key : String) :
    Member.lastVerdict members key = .ok ((lastUnder? key entries).getD default) := by
  rw [Member.lastVerdict, map_verdict_lastValue? h]
  cases lastUnder? key entries <;> rfl

theorem gather_of_ok {members : List Member} {entries : List (String × Value)}
    (h : Member.verdicts members = .ok entries) (value : String → Value) :
    Member.gather (fun key _ => .ok (value key)) members =
    .ok (entries.map fun e => (e.1, value e.1)) := by
  induction members generalizing entries with
  | nil =>
    cases h
    rfl
  | cons m later ih =>
    cases m with
    | spread e => exact ih h
    | property key e =>
      obtain ⟨v, rest, _, hrest, rfl⟩ := Member.verdicts_property h
      rw [Member.gather, ih hrest]
      rfl

/-- What is to come to a value, or repeats no key. -/
def Expr.Steady (e : Expr) : Prop := (∃ v, e.verdict = .ok v) ∨ e.Throughout Expr.repeatsNoKey

/-- When the last property counts for each key, the literal still comes to the same object. -/
theorem gather_lastVerdict {span : Span} {members : List Member}
    (h : (Expr.object span members).Steady) :
    (Member.gather (fun key _ => Member.lastVerdict members key) members >>= fun entries =>
      pure (.object default (Object.ofEntries entries))) = (Expr.object span members).verdict := by
  rw [Expr.verdict]
  cases hverdicts : Member.verdicts members with
  | ok entries =>
    have hgather := gather_of_ok hverdicts fun key => (lastUnder? key entries).getD default
    simp only [lastVerdict_of_ok hverdicts, hgather]
    exact congrArg (fun entries => Except.ok (Value.object default entries))
      (Object.ofEntries_lastUnder? entries)
  | error cause =>
    have hnodup : (members.filterMap Member.key?).Nodup := by
      rcases h with ⟨v, hv⟩ | h
      · rw [Expr.verdict, hverdicts] at hv
        cases hv
      · exact of_decide_eq_true h.self
    rw [← hverdicts, Member.verdicts_eq_gather]
    congr 1
    refine Member.gather_congr fun key e hmem => ?_
    rw [Member.lastVerdict, lastValue?_of_nodup hnodup hmem]
    rfl

theorem Expr.Steady.property {span : Span} {members : List Member}
    (h : (Expr.object span members).Steady) {key : String} {e : Expr}
    (hvalue : lastValue? key members = some e) : e.Steady := by
  rcases h with ⟨v, hv⟩ | h
  · rw [Expr.verdict] at hv
    cases hverdicts : Member.verdicts members with
    | error cause =>
      rw [hverdicts] at hv
      cases hv
    | ok entries =>
      have hlast := lastVerdict_of_ok hverdicts key
      rw [Member.lastVerdict, hvalue] at hlast
      exact .inl ⟨_, hlast⟩
  · exact .inr (h.child (Member.expr_mem_children (lastValue?_mem hvalue)))

/-! ## Requests -/

/-- Asking for the path gave a value that looks like this. It is kept, and no binding changed but
those of the paths. -/
structure Value.KeptAs (p : Stage) (path : String) (paths : List String) (v : Value) (p' : Stage)
    (w : Value) : Prop where
  bare : v.bare = w
  kept : p'.store.state? path = some (.evaluated v)
  others : ∀ other ∉ paths, p'.store.find? other = p.store.find? other

section

variable {host : Host} {p : Stage} {path : String} {paths : List String} {w : Value}

/-- A request for a binding that waits comes to what its task comes to, one level further in. -/
theorem meets_request {b : Suspension} {expected : Except RuntimeCause Value}
    (hfind : p.store.find? path = some ⟨path, .unevaluated, b⟩) (hpath : path ∉ paths)
    (hbody : ∀ left, Meets host (evalTask host left (innerOf host left) b) ⟨p.store.start path, 0⟩
      (fun v p' w => v.bare = w ∧
        ∀ other ∉ paths, p'.store.find? other = (p.store.start path).find? other) expected)
    (left : Nat) :
    Meets host (liftM (Attempt.value left path)) p
      (Value.KeptAs p path (path :: paths)) expected := by
  by_cases hsteps : p.store.stepsLeft = 0
  · have hstate : p.store.state? path = some .unevaluated := by rw [state?, hfind]; rfl
    refine .stopped (e := .timeLimit p.store.limits.steps) rfl (fails_value.mpr ?_)
    rw [value_of_now _ (reply_unevaluated hstate hsteps)]
  have hrun : p.store.reply path = .run b := reply_eq_run.mpr ⟨_, hfind, rfl, rfl, hsteps⟩
  cases left with
  | zero =>
    refine .stopped (e := host.overflow) rfl (fails_value.mpr ?_)
    rw [value_of_run _ hrun]
    rfl
  | succ left =>
    have hfails :
        ∀ e, Fails host (evalTask host left (innerOf host left) b) ⟨p.store.start path, 0⟩ e →
        Fails host (liftM (Attempt.value (left + 1) path) : Evaluation Value) p e := by
      intro e h
      rw [fails_value, value_of_run _ hrun]
      dsimp only
      rw [fails_body.mpr h]
      rfl
    cases hbody left with
    | stopped hresource h => exact .stopped hresource (hfails _ h)
    | error h => exact .error (hfails _ h)
    | @value v w p' h hgood =>
      obtain ⟨hbare, hothers⟩ := hgood
      have hvalue : p.store.value (behaviour host) (left + 1) path =
          p'.store.finish path (.ok v) := by
        rw [value_of_run _ hrun]
        dsimp only
        rw [succeeds_body.mpr ⟨p'.made, h⟩]
      by_cases hcost : p'.store.bytesLeft < v.cost
      · refine .stopped (e := .spaceLimit v.cost p'.store.bytesLeft) rfl (fails_value.mpr ?_)
        rw [hvalue, finish, if_pos hcost]
      · let after : Store Suspension :=
          { p'.store.mark path (.evaluated v) with bytesLeft := p'.store.bytesLeft - v.cost }
        have hfinish : p'.store.finish path (.ok v) = (.ok v, after) := by
          rw [finish, if_neg hcost]
        have hsucceeds :
            Succeeds host (liftM (Attempt.value (left + 1) path)) p v ⟨after, p.made⟩ :=
          succeeds_value.mpr ⟨hvalue.trans hfinish, rfl⟩
        refine .value hsucceeds ⟨hbare, ?_, fun other hother => ?_⟩
        · have hthere : p'.store.state? path = some .inProgress := by
            rw [state?, hothers path hpath, ← state?, state?_start, state?_mark, if_pos rfl,
              state?, hfind]
            rfl
          show (p'.store.mark path (.evaluated v)).state? path = _
          rw [state?_mark, if_pos rfl, hthere]
          rfl
        · rw [List.mem_cons, not_or] at hother
          show (p'.store.mark path (.evaluated v)).find? other = _
          rw [find?_mark_of_ne hother.1, hothers other hother.2]
          exact find?_mark_of_ne hother.1 p.store .inProgress

/-! ## Properties -/

/-- The bindings of an expression at a path wait to be forced, or its value is kept. -/
inductive Obtainable (s : Store Suspension) (scopes : List String) (path : String) (e : Expr) : Prop
  | waiting (h : Waiting s (bindingsAt scopes path e))
  | kept {v : Value} (hkept : s.state? path = some (.evaluated v)) (hv : e.verdict = .ok v.bare)

/-- For each key the last property is obtainable. -/
def AllObtainable (s : Store Suspension) (scopes : List String) (path : String)
    (members : List Member) : Prop :=
  ∀ key e, lastValue? key members = some e → Obtainable s scopes (childPath path key) e

theorem Obtainable.later {s s' : Store Suspension} {scopes : List String} {e : Expr}
    (h : Obtainable s scopes path e)
    (hsame : ∀ other ∈ e.declared path, s'.find? other = s.find? other) :
    Obtainable s' scopes path e := by
  cases h with
  | waiting h =>
    refine .waiting fun b hb => ?_
    rw [hsame b.path, h b hb]
    rw [← map_path_bindingsAt e scopes path]
    exact List.mem_map_of_mem hb
  | kept hkept hv =>
    refine .kept ?_ hv
    rw [state?, hsame path, ← state?, hkept]
    cases e <;> simp [Expr.declared]

/-- What is obtainable is asked for with the same outcome, whether or not it was asked for
before. -/
theorem meets_obtainable {left : Nat} {scopes : List String} {e : Expr}
    (h : Obtainable p.store scopes path e) (hwaiting : Waiting p.store (bindingsAt scopes path e) →
      Meets host (liftM (Attempt.value left path)) p
        (Value.KeptAs p path (e.declared path)) e.verdict) :
    Meets host (liftM (Attempt.value left path)) p
      (Value.KeptAs p path (e.declared path)) e.verdict := by
  cases h with
  | waiting h => exact hwaiting h
  | @kept v hkept hv =>
    rw [hv]
    have hnow : p.store.value (behaviour host) left path = (.ok v, p.store) :=
      value_of_now _ (reply_evaluated hkept) left
    exact .value (succeeds_value.mpr ⟨hnow, rfl⟩) ⟨rfl, hkept, fun _ _ => rfl⟩

end

/-! ## Paths of properties -/

/-- The paths below a path that the last property with the key declares, if there is one. -/
def Member.declaredUnder (members : List Member) (path key : String) : List String :=
  ((lastValue? key members).map fun e => e.declared (childPath path key)).getD []

theorem Member.declaredUnder_of_some {members : List Member} {key : String} {e : Expr}
    (h : lastValue? key members = some e) (path : String) :
    Member.declaredUnder members path key = e.declared (childPath path key) := by
  rw [Member.declaredUnder, h]
  rfl

theorem lastUnder?_declared (key path : String) (members : List Member) :
    lastUnder? key (Member.declared path members) =
      (lastValue? key members).map fun e => e.declared (childPath path key) := by
  induction members with
  | nil => rfl
  | cons m later ih =>
    cases m with
    | spread e => exact ih
    | property other value =>
      rw [Member.declared, lastUnder?_cons, ih, lastValue?, Option.map_or]
      by_cases h : other = key
      · simp [h]
      · simp [h, Ne.symm h]

theorem lastEntries_declared (path : String) (members : List Member) :
    lastEntries (Member.declared path members) =
      ((Member.declared path members).map (·.1)).dedup.flatMap
        (Member.declaredUnder members path) := by
  simp only [lastEntries, lastUnder?_declared]
  rfl

theorem Member.mem_declaredUnder {members : List Member} {path key other : String}
    (h : other ∈ Member.declaredUnder members path key) :
    ∃ e, lastValue? key members = some e ∧ other ∈ e.declared (childPath path key) := by
  cases hvalue : lastValue? key members with
  | some e => exact ⟨e, rfl, Member.declaredUnder_of_some hvalue path ▸ h⟩
  | none =>
    rw [Member.declaredUnder, hvalue] at h
    cases h

theorem Member.mem_keys_of_lastValue? {members : List Member} {key : String} {e : Expr}
    (h : lastValue? key members = some e) (path : String) :
    key ∈ ((Member.declared path members).map (·.1)).dedup := by
  rw [List.mem_dedup, ← lastUnder?_isSome, lastUnder?_declared, h]
  rfl

theorem Member.declaredUnder_subset (members : List Member) (path key : String) :
    Member.declaredUnder members path key ⊆ lastEntries (Member.declared path members) := by
  intro other hother
  obtain ⟨e, hvalue, _⟩ := Member.mem_declaredUnder hother
  rw [lastEntries_declared]
  exact List.mem_flatMap.mpr ⟨key, Member.mem_keys_of_lastValue? hvalue path, hother⟩

section

variable {members : List Member} {path : String}
  (h : (lastEntries (Member.declared path members)).Nodup)

include h

/-- If no path is declared twice, the last property with a key declares none twice. -/
theorem Member.nodup_declared {key : String} {e : Expr} (hvalue : lastValue? key members = some e) :
    (e.declared (childPath path key)).Nodup := by
  rw [lastEntries_declared, List.nodup_flatMap] at h
  exact Member.declaredUnder_of_some hvalue path ▸
    h.1 key (Member.mem_keys_of_lastValue? hvalue path)

/-- Nor do different keys have paths in common. -/
theorem Member.disjoint_declaredUnder {key key' : String} (hne : key ≠ key') :
    List.Disjoint (Member.declaredUnder members path key)
      (Member.declaredUnder members path key') := by
  rw [lastEntries_declared, List.nodup_flatMap] at h
  have hsymm : Std.Symm (Function.onFun List.Disjoint (Member.declaredUnder members path)) :=
    ⟨fun _ _ hdisjoint => hdisjoint.symm⟩
  intro other hkey hkey'
  obtain ⟨e, hvalue, _⟩ := Member.mem_declaredUnder hkey
  obtain ⟨e', hvalue', _⟩ := Member.mem_declaredUnder hkey'
  exact h.2.forall (Member.mem_keys_of_lastValue? hvalue path)
    (Member.mem_keys_of_lastValue? hvalue' path) hne hkey hkey'

end

section

variable {host : Host} {left : Nat} {scopes : List String} {path : String} {members : List Member}
  (hask : ∀ key e, lastValue? key members = some e → ∀ p : Stage,
    Waiting p.store (bindingsAt scopes (childPath path key) e) →
      Meets host (liftM (Attempt.value left (childPath path key))) p
        (Value.KeptAs p (childPath path key) (e.declared (childPath path key))) e.verdict)
  (hapart : ∀ key key', key ≠ key' →
    List.Disjoint (Member.declaredUnder members path key) (Member.declaredUnder members path key'))

include hask hapart

/-- Asking for one property after another comes to what the last properties with their keys come
to. -/
theorem meets_forceMembers {inner : Inner} {frame : Frame} (later : List Member)
    (hlater : ∀ m ∈ later, ∃ key e last, m = .property key e ∧ lastValue? key members = some last)
    (entries : Object Value) (p : Stage) (hobtain : AllObtainable p.store scopes path members) :
    Meets host (forceMembers host left inner frame path entries later) p
      (fun found p' more =>
        Value.bareEntries found = Object.extend (Value.bareEntries entries) more ∧
        ∀ other, (∀ key, other ∉ Member.declaredUnder members path key) →
          p'.store.find? other = p.store.find? other)
      (Member.gather (fun key _ => Member.lastVerdict members key) later) := by
  induction later generalizing entries p with
  | nil => exact .pure ⟨rfl, fun _ _ => rfl⟩
  | cons m later ih =>
    obtain ⟨⟨key, e, last, rfl, hlast⟩, hrest⟩ := List.forall_mem_cons.mp hlater
    have hunder := Member.declaredUnder_of_some hlast path
    have hverdict : Member.lastVerdict members key = last.verdict := by
      rw [Member.lastVerdict, hlast]
      rfl
    rw [forceMembers, Member.gather, hverdict]
    refine (meets_obtainable (hobtain key last hlast) (hask key last hlast p)).bind
      fun v p₁ w hw hv => ?_
    have hobtain' : AllObtainable p₁.store scopes path members := by
      intro key' last' hlast'
      by_cases hkey : key' = key
      · subst hkey
        cases hlast.symm.trans hlast'
        exact .kept hv.kept (by rw [hw, hv.bare])
      · refine (hobtain key' last' hlast').later fun other hother => hv.others other fun hmem => ?_
        have hunder' := Member.declaredUnder_of_some hlast' path
        exact hapart key' key hkey (hunder' ▸ hother) (hunder ▸ hmem)
    refine (ih hrest (entries.insert key v) p₁ hobtain').map ?_
    rintro found p₂ more ⟨hfound, hothers⟩
    refine ⟨?_, fun other hother => ?_⟩
    · rw [hfound, Value.bareEntries_insert, hv.bare]
      rfl
    · rw [hothers other hother, hv.others other (hunder ▸ hother key)]

end

/-! ## All that names nothing -/

/-- What is no object literal is evaluated in place by its binding, repeated keys included. -/
theorem meets_single {host : Host} {e : Expr} (hkind : ∀ span members, e ≠ .object span members)
    (hinert : e.Inert) {scopes : List String} {path : String} {p : Stage}
    (hwaiting : Waiting p.store (bindingsAt scopes path e)) (left : Nat) :
    Meets host (liftM (Attempt.value left path)) p
      (Value.KeptAs p path (e.declared path)) e.verdict := by
  have hsingle : e.declared path = [path] ∧ bindingsAt scopes path e =
      [⟨path, if scopes.isEmpty then [path] else scopes, .expression e⟩] := by
    cases e with
    | object span members => exact absurd rfl (hkind span members)
    | _ => exact ⟨rfl, rfl⟩
  rw [hsingle.1]
  refine meets_request (hwaiting _ (hsingle.2 ▸ List.mem_cons_self)) List.not_mem_nil
    (fun left => ?_) left
  refine Meets.mono (meets_eval e hinert _) fun v p' w hv => ⟨hv.bare, fun other _ => ?_⟩
  rw [hv.onward.store]

/-- An object literal comes to its verdict if its properties do when they are asked for. -/
theorem meets_literal {host : Host} {span : Span} {members : List Member}
    (hinert : (Expr.object span members).Inert) (hsteady : (Expr.object span members).Steady)
    {scopes : List String} {path : String}
    (hnodup : ((Expr.object span members).declared path).Nodup) {p : Stage}
    (hwaiting : Waiting p.store (bindingsAt scopes path (.object span members)))
    (hask : ∀ left key e, lastValue? key members = some e → ∀ p : Stage,
      Waiting p.store (bindingsAt (path :: scopes) (childPath path key) e) →
        Meets host (liftM (Attempt.value left (childPath path key))) p
          (Value.KeptAs p (childPath path key) (e.declared (childPath path key))) e.verdict)
    (left : Nat) :
    Meets host (liftM (Attempt.value left path)) p
      (Value.KeptAs p path ((Expr.object span members).declared path))
      (Expr.object span members).verdict := by
  obtain ⟨hself, hmembers⟩ := List.forall_mem_cons.mp hwaiting
  obtain ⟨hpath, hpaths⟩ := List.nodup_cons.mp hnodup
  have hwaits : Waiting (p.store.start path) (memberBindings (path :: scopes) path members) := by
    refine Waiting.start hmembers fun b hb heq => hpath ?_
    have hmem := List.mem_map_of_mem (f := Suspension.path) hb
    rw [map_path_memberBindings] at hmem
    exact heq ▸ hmem
  have hobtain : AllObtainable (p.store.start path) (path :: scopes) path members :=
    fun key e hvalue => .waiting fun b hb => hwaits b (bindingsAt_subset _ path hvalue hb)
  have hall :
      ∀ m ∈ members, ∃ key e last, m = .property key e ∧ lastValue? key members = some last := by
    intro m hm
    obtain ⟨key, e, rfl, _⟩ := hinert.property hm
    obtain ⟨last, hlast⟩ := exists_lastValue? hm
    exact ⟨key, e, last, rfl, hlast⟩
  refine meets_request hself hpath (fun left => ?_) left
  rw [← gather_lastVerdict hsteady]
  refine (meets_forceMembers (hask left)
    (fun _ _ hne => Member.disjoint_declaredUnder hpaths hne) members hall []
    ⟨p.store.start path, 0⟩ hobtain).bind
      fun found p' more _ hgood => .fresh ⟨?_, fun other hother => ?_⟩
  · rw [Value.bare, hgood.1]
    rfl
  · exact hgood.2 other fun key hmem => hother (Member.declaredUnder_subset members path key hmem)

/-- A request for the path of what names nothing comes to its verdict, if that is a value or no key
is repeated. -/
theorem meets_value (host : Host) (e : Expr) (hinert : e.Inert) (hsteady : e.Steady)
    {scopes : List String} {path : String} (hnodup : (e.declared path).Nodup) (p : Stage)
    (hwaiting : Waiting p.store (bindingsAt scopes path e)) (left : Nat) :
    Meets host (liftM (Attempt.value left path)) p
      (Value.KeptAs p path (e.declared path)) e.verdict := by
  induction hsize : e.size using Nat.strongRecOn generalizing e scopes path p left with
  | ind size ih =>
    by_cases hobject : ∃ span members, e = .object span members
    · obtain ⟨span, members, rfl⟩ := hobject
      refine meets_literal hinert hsteady hnodup hwaiting
        (fun left key e hvalue p hwaiting => ?_) left
      have hchild : e ∈ (Expr.object span members).children :=
        Member.expr_mem_children (lastValue?_mem hvalue)
      exact ih e.size (hsize ▸ Expr.size_lt_of_child hchild) e (hinert.child hchild)
        (hsteady.property hvalue)
        (Member.nodup_declared (List.nodup_cons.mp hnodup).2 hvalue) p hwaiting left rfl
    · exact meets_single (fun span members heq => hobject ⟨span, members, heq⟩) hinert hwaiting left

end LazyConfig
