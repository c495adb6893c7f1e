-- Documents of constants: once loaded, their value is what the document says. The properties of an
-- object at the root, and of objects in it, are bindings of their own, which are forced one after
-- another, each at its own cost.
-- Main statement: a constant is loaded under a free name, and its value is asked for with success.
import LazyConfig.Proofs.Document.Constants
import LazyConfig.Proofs.Document.Loading
import LazyConfig.Proofs.Document.Paths
import LazyConfig.Session

namespace LazyConfig

open Store

/-! ## What the value of a document takes -/

namespace Value

mutual

/-- The paths of a document with this value: its own, and those of the properties of objects. -/
def paths (path : String) : Value → List String
  | object _ entries => path :: entryPaths path entries
  | _ => [path]

def entryPaths (path : String) : List (String × Value) → List String
  | [] => []
  | (key, v) :: rest => v.paths (childPath path key) ++ entryPaths path rest

end

mutual

/-- How many bindings are forced for the value. -/
def forcings : Value → Nat
  | object _ entries => entriesForcings entries + 1
  | _ => 1

def entriesForcings : List (String × Value) → Nat
  | [] => 0
  | (_, v) :: rest => v.forcings + entriesForcings rest

end

mutual

/-- What all these bindings cost at most. -/
def charges : Value → Nat
  | object id entries => entriesCharges entries + size (object id entries)
  | v => v.size

def entriesCharges : List (String × Value) → Nat
  | [] => 0
  | (_, v) :: rest => v.charges + entriesCharges rest

end

mutual

/-- How deep their forcings nest. -/
def levels : Value → Nat
  | object _ entries => entriesLevels entries + 1
  | _ => 1

def entriesLevels : List (String × Value) → Nat
  | [] => 0
  | (_, v) :: rest => max v.levels (entriesLevels rest)

end

end Value

/-- A value that is no object is a single binding. -/
theorem Value.paths_of_no_object {w : Value} (h : w.object? = none) (path : String) :
    w.paths path = [path] ∧ w.forcings = 1 ∧ w.charges = w.size ∧ w.levels = 1 := by
  cases w with
  | object => cases h
  | _ => exact ⟨rfl, rfl, rfl, rfl⟩

/-! ## The bindings of a constant -/

theorem Value.no_object_of_plain {w : Value} (h : w.identity? = none) : w.object? = none := by
  cases w with
  | object => cases h
  | _ => rfl

theorem eq_ok_of_toOption {ε α : Type} {r : Except ε α} {a : α} (h : r.toOption = some a) :
    r = .ok a := by
  cases r with
  | error e => cases h
  | ok b => rw [Option.some.inj h]

/-- A constant is an object of constants, or a single binding that is no object. -/
theorem Expr.constant?_cases {e : Expr} {w : Value} (h : e.constant? = some w) :
    (∃ span ms entries, e = .object span ms ∧ Member.constants? ms = some entries ∧
      (Object.keys entries).Nodup ∧ w = .object default entries) ∨
    (w.object? = none ∧ ∀ scopes path, bindingsAt scopes path e =
      [⟨path, if scopes.isEmpty then [path] else scopes, .expression e⟩]) := by
  cases e with
  | object span ms =>
    obtain ⟨entries, hentries, h⟩ := Option.bind_eq_some_iff.mp h
    split at h
    · next hnodup =>
      cases h
      exact .inl ⟨span, ms, entries, rfl, hentries, hnodup, rfl⟩
    · cases h
  | null | boolean | string =>
    cases h
    exact .inr ⟨rfl, fun _ _ => rfl⟩
  | number span text =>
    have hplain := Value.plain_ofNumber (eq_ok_of_toOption h)
    exact .inr ⟨Value.no_object_of_plain hplain, fun _ _ => rfl⟩
  | blob span form text =>
    have hplain := Value.plain_ofBlob (eq_ok_of_toOption h)
    exact .inr ⟨Value.no_object_of_plain hplain, fun _ _ => rfl⟩
  | array span es =>
    obtain ⟨vs, -, rfl⟩ := Option.map_eq_some_iff.mp h
    exact .inr ⟨rfl, fun _ _ => rfl⟩
  | unary span op e =>
    cases op with
    | not => cases h
    | neg =>
      cases e with
      | number span' text =>
        have hread := eq_ok_of_toOption h
        cases hx : Value.ofNumber text with
        | error cause =>
          rw [hx] at hread
          cases hread
        | ok x =>
          rw [hx] at hread
          have hplain := Value.plain_unary hread
          exact .inr ⟨Value.no_object_of_plain hplain, fun _ _ => rfl⟩
      | _ => cases h
  | identifier | relative | call | lambda | binary => cases h

theorem Member.isOverridden_of_constants? : {ms : List Member} → {entries : Object Value} →
    Member.constants? ms = some entries → {key : String} → key ∉ Object.keys entries →
    isOverridden key ms = false
  | [], _, _, _, _ => rfl
  | .property key' e :: ms, entries, h, key, hkey => by
    obtain ⟨v, -, h⟩ := Option.bind_eq_some_iff.mp h
    obtain ⟨entries, hentries, rfl⟩ := Option.map_eq_some_iff.mp h
    rw [Object.keys_cons, List.mem_cons, not_or] at hkey
    have hmore := Member.isOverridden_of_constants? hentries hkey.2
    simp only [isOverridden, List.any_cons, Member.key?] at hmore ⊢
    simp [hmore, Ne.symm hkey.1]
  | .spread _ :: _, _, h, _, _ => by cases h

mutual

/-- The bindings of a constant have the paths of its value. -/
theorem paths_bindingsAt : (e : Expr) → {w : Value} → e.constant? = some w →
    (scopes : List String) → (path : String) →
    (bindingsAt scopes path e).map (·.path) = w.paths path
  | .object span ms, w, h, scopes, path => by
    rcases Expr.constant?_cases h with ⟨_, _, entries, heq, hentries, hnodup, rfl⟩ | ⟨_, hsingle⟩
    · cases heq
      rw [bindingsAt, List.map_cons, paths_memberBindings ms hentries hnodup, Value.paths]
    · simp [bindingsAt] at hsingle
  | .null _, w, h, scopes, path | .boolean _ _, w, h, scopes, path
  | .number _ _, w, h, scopes, path | .string _ _, w, h, scopes, path
  | .blob _ _ _, w, h, scopes, path | .array _ _, w, h, scopes, path
  | .unary _ _ _, w, h, scopes, path => by
    rcases Expr.constant?_cases h with ⟨_, _, _, heq, -⟩ | ⟨hw, hsingle⟩
    · cases heq
    · rw [hsingle, (Value.paths_of_no_object hw path).1]
      rfl

theorem paths_memberBindings : (ms : List Member) → {entries : List (String × Value)} →
    Member.constants? ms = some entries → (Object.keys entries).Nodup →
    (scopes : List String) → (path : String) →
    (memberBindings scopes path ms).map (·.path) = Value.entryPaths path entries
  | [], _, h, _, _, _ => by
    cases h
    rfl
  | .property key e :: ms, entries, h, hnodup, scopes, path => by
    obtain ⟨v, hv, h⟩ := Option.bind_eq_some_iff.mp h
    obtain ⟨entries, hentries, rfl⟩ := Option.map_eq_some_iff.mp h
    rw [Object.keys_cons, List.nodup_cons] at hnodup
    rw [memberBindings, Member.isOverridden_of_constants? hentries hnodup.1]
    simp only [Bool.false_eq_true, if_false, List.map_append, Value.entryPaths]
    rw [paths_bindingsAt e hv, paths_memberBindings ms hentries hnodup.2]
  | .spread _ :: _, _, h, _, _, _ => by cases h

end

/-! ## Forcing -/

/-- What forcing some paths takes from a store. It leaves all other paths as they were. -/
structure Spends (steps bytes : Nat) (paths : List String) (s s' : Store Suspension) : Prop where
  steps : s.stepsLeft ≤ s'.stepsLeft + steps
  bytes : s.bytesLeft ≤ s'.bytesLeft + bytes
  others : ∀ path, path ∉ paths → s'.find? path = s.find? path

/-- The bindings are in the store and were not forced yet. -/
def Waiting (s : Store Suspension) (bindings : List Suspension) : Prop :=
  ∀ b ∈ bindings, s.find? b.path = some ⟨b.path, .unevaluated, b⟩

variable {s s' s'' : Store Suspension} {steps bytes steps' bytes' : Nat}
  {paths paths' : List String}

theorem Spends.refl (s : Store Suspension) : Spends 0 0 [] s s :=
  ⟨Nat.le_refl _, Nat.le_refl _, fun _ _ => rfl⟩

theorem Spends.trans (h : Spends steps bytes paths s s') (h' : Spends steps' bytes' paths' s' s'') :
    Spends (steps + steps') (bytes + bytes') (paths ++ paths') s s'' where
  steps := by
    have := h.steps
    have := h'.steps
    omega
  bytes := by
    have := h.bytes
    have := h'.bytes
    omega
  others path hpath := by
    rw [List.mem_append, not_or] at hpath
    rw [h'.others path hpath.2, h.others path hpath.1]

theorem Spends.waiting (h : Spends steps bytes paths s s') {bindings : List Suspension}
    (hwaiting : Waiting s bindings) (hpaths : ∀ b ∈ bindings, b.path ∉ paths) :
    Waiting s' bindings :=
  fun b hb => by rw [h.others b.path (hpaths b hb), hwaiting b hb]

theorem find?_mark_of_ne {path other : String} (h : other ≠ path) (s : Store Suspension)
    (state : BindingState) : (s.mark path state).find? other = s.find? other := by
  rw [find?_mark]
  simp [h]

/-- A forcing whose body succeeds takes one step more than the body and the cost of the value. -/
theorem value_spends {host : Host} {left : Nat} {path : String} {b : Suspension} {v : Value}
    (hfind : s.find? path = some ⟨path, .unevaluated, b⟩) (hsteps : s.stepsLeft ≠ 0)
    (hrun : (s.start path).exec (behaviour host) (behaviour host b left) = (.ok v, s'))
    (hspends : Spends steps bytes paths (s.start path) s') (hcost : v.cost ≤ s'.bytesLeft) :
    ∃ s'', s.value (behaviour host) left path = (.ok v, s'') ∧
      Spends (steps + 1) (bytes + v.cost) (path :: paths) s s'' := by
  have hreply : s.reply path = .run b := reply_eq_run.mpr ⟨_, hfind, rfl, rfl, hsteps⟩
  rw [value_of_run _ hreply, hrun]
  have hfinish : s'.finish path (.ok v) =
      (.ok v, { s'.mark path (.evaluated v) with bytesLeft := s'.bytesLeft - v.cost }) := by
    simp only [finish, if_neg (Nat.not_lt.mpr hcost)]
  refine ⟨_, hfinish, ?_, ?_, fun other hother => ?_⟩
  · have hstart : (s.start path).stepsLeft = s.stepsLeft - 1 := rfl
    have hafter := hspends.steps
    show s.stepsLeft ≤ s'.stepsLeft + (steps + 1)
    omega
  · have hstart : (s.start path).bytesLeft = s.bytesLeft := rfl
    have hafter := hspends.bytes
    show s.bytesLeft ≤ s'.bytesLeft - v.cost + (bytes + v.cost)
    omega
  · rw [List.mem_cons, not_or] at hother
    show (s'.mark path (.evaluated v)).find? other = s.find? other
    rw [find?_mark_of_ne hother.1, hspends.others other hother.2]
    exact find?_mark_of_ne hother.1 s .inProgress

theorem Waiting.append {bindings bindings' : List Suspension}
    (h : Waiting s (bindings ++ bindings')) :
    Waiting s bindings ∧ Waiting s bindings' := List.forall_mem_append.mp h

theorem Waiting.start {bindings : List Suspension} (h : Waiting s bindings) {path : String}
    (hpath : ∀ b ∈ bindings, b.path ≠ path) : Waiting (s.start path) bindings := by
  intro b hb
  show (s.mark path .inProgress).find? b.path = _
  rw [find?_mark, h b hb]
  simp [hpath b hb]

variable (host : Host)

/-- The value of a constant that is no object, forced by itself. -/
theorem value_single {e : Expr} {w : Value} (h : e.constant? = some w) {path : String}
    {scopes : List String}
    (hfind : s.find? path = some ⟨path, .unevaluated, ⟨path, scopes, .expression e⟩⟩)
    (hsteps : 1 ≤ s.stepsLeft) (hbytes : w.size ≤ s.bytesLeft) {left : Nat} (hleft : 1 ≤ left) :
    ∃ v s', s.value (behaviour host) left path = (.ok v, s') ∧ v.bare = w ∧
      Spends 1 w.size [path] s s' := by
  obtain ⟨left, rfl⟩ := Nat.exists_eq_add_of_le' hleft
  obtain ⟨v, count, heval, hv⟩ :=
    gives_eval host left (innerOf host left) ⟨path, scopes, []⟩ e h 0
  have hrun : (s.start path).exec (behaviour host)
      (behaviour host ⟨path, scopes, .expression e⟩ (left + 1)) = (.ok v, s.start path) := by
    have hbody : behaviour host ⟨path, scopes, .expression e⟩ (left + 1) =
        ((pure (v, count) : Attempt (Value × Nat)) >>= fun p => pure p.1 : Attempt Value) := by
      show ((eval host left (innerOf host left) ⟨path, scopes, []⟩ e).run' 0 : Attempt Value) = _
      rw [← heval]
      rfl
    rw [hbody]
    rfl
  have hcost : v.cost ≤ w.size := hv ▸ v.cost_le_size
  obtain ⟨s', hvalue, hspends⟩ := value_spends hfind (by omega) hrun (.refl _)
    (Nat.le_trans hcost hbytes)
  refine ⟨v, s', hvalue, hv, hspends.steps, ?_, hspends.others⟩
  have := hspends.bytes
  omega

theorem exec_members {s s' : Store Suspension} {left count : Nat} {path : String}
    {scopes : List String} {ms : List Member} {entries : Object Value}
    (h : s.exec (behaviour host)
      (forceMembers host left (innerOf host left) ⟨path, scopes, []⟩ path [] ms 0).run =
        (.ok (entries, count), s')) :
    s.exec (behaviour host) (behaviour host ⟨path, scopes, .members ms⟩ (left + 1)) =
      (.ok (.object ⟨path, count⟩ entries), s') := by
  have hbody : behaviour host ⟨path, scopes, .members ms⟩ (left + 1) =
      (forceMembers host left (innerOf host left) ⟨path, scopes, []⟩ path [] ms 0 >>= fun p =>
        pure (.object ⟨path, p.2⟩ p.1) : Attempt Value).run := by
    show (Prod.fst <$>
      (forceMembers host left (innerOf host left) ⟨path, scopes, []⟩ path [] ms 0 >>= fun p =>
        pure (.object ⟨path, p.2⟩ p.1, p.2 + 1)) : Attempt Value) = _
    simp only [map_bind, map_pure]
    rfl
  rw [hbody, exec_run_bind, h]
  rfl

theorem exec_forceProperty {s s' : Store Suspension} {left count : Nat} {inner : Inner}
    {frame : Frame} {path key : String} {before : Object Value} {e : Expr}
    {ms : List Member} {v : Value}
    (h : s.value (behaviour host) left (childPath path key) = (.ok v, s')) :
    s.exec (behaviour host)
        (forceMembers host left inner frame path before (.property key e :: ms) count).run =
      s'.exec (behaviour host)
        (forceMembers host left inner frame path (before.insert key v) ms count).run := by
  have hask : s.exec (behaviour host) (Attempt.value left (childPath path key)).run =
      (.ok v, s') := h
  show s.exec (behaviour host)
    ((Attempt.value left (childPath path key) >>= fun v => pure (v, count)) >>= fun p =>
      forceMembers host left inner frame path (before.insert key p.1) ms p.2 : Attempt _).run = _
  rw [bind_assoc, exec_run_bind, hask]
  rfl

mutual

/-- A constant whose bindings wait for it is forced with success. -/
theorem value_constant : (e : Expr) → {w : Value} → e.constant? = some w → {scopes : List String} →
    {path : String} → (w.paths path).Nodup → {s : Store Suspension} →
    Waiting s (bindingsAt scopes path e) → w.forcings ≤ s.stepsLeft → w.charges ≤ s.bytesLeft →
    (left : Nat) → w.levels ≤ left →
    ∃ v s', s.value (behaviour host) left path = (.ok v, s') ∧ v.bare = w ∧
      Spends w.forcings w.charges (w.paths path) s s'
  | .object span ms, w, h, scopes, path, hnodup, s, hwaiting, hsteps, hbytes, left, hleft => by
    rcases Expr.constant?_cases h with ⟨_, _, entries, heq, hentries, hkeys, rfl⟩ | ⟨_, hsingle⟩
    · cases heq
      obtain ⟨hpath, hpaths⟩ := List.nodup_cons.mp hnodup
      obtain ⟨hself, hmembers⟩ := List.forall_mem_cons.mp hwaiting
      obtain ⟨left, rfl⟩ := Nat.exists_eq_add_of_le' (Nat.le_trans (Nat.le_add_left 1 _) hleft)
      have hmembers : Waiting (s.start path) (memberBindings (path :: scopes) path ms) := by
        refine Waiting.start hmembers fun b hb heq => hpath ?_
        have hmem := List.mem_map_of_mem (f := Suspension.path) hb
        rw [paths_memberBindings ms hentries hkeys] at hmem
        exact heq ▸ hmem
      have hstart : (s.start path).stepsLeft = s.stepsLeft - 1 := rfl
      have hstart' : (s.start path).bytesLeft = s.bytesLeft := rfl
      unfold Value.forcings at hsteps ⊢
      unfold Value.charges at hbytes ⊢
      unfold Value.levels at hleft
      obtain ⟨found, count, s', hrun, hfound, hspends⟩ :=
        forceMembers_constants ms hentries [] hkeys hpaths hmembers (by omega) (by omega) left
          (by omega) (innerOf host left) ⟨path, path :: scopes, []⟩ 0
      have hbare : (Value.object ⟨path, count⟩ found).bare = .object default entries := by
        rw [Value.bare, hfound]
        rfl
      have hcost := hbare ▸ (Value.object ⟨path, count⟩ found).cost_le_size
      have hleftover := hspends.bytes
      obtain ⟨s'', hvalue, hspends⟩ :=
        value_spends hself (by omega) (exec_members host hrun) hspends
        (by omega)
      refine ⟨_, s'', hvalue, hbare, hspends.steps, ?_, hspends.others⟩
      have := hspends.bytes
      omega
    · simp [bindingsAt] at hsingle
  | .null _, w, h, scopes, path, hnodup, s, hwaiting, hsteps, hbytes, left, hleft
  | .boolean _ _, w, h, scopes, path, hnodup, s, hwaiting, hsteps, hbytes, left, hleft
  | .number _ _, w, h, scopes, path, hnodup, s, hwaiting, hsteps, hbytes, left, hleft
  | .string _ _, w, h, scopes, path, hnodup, s, hwaiting, hsteps, hbytes, left, hleft
  | .blob _ _ _, w, h, scopes, path, hnodup, s, hwaiting, hsteps, hbytes, left, hleft
  | .array _ _, w, h, scopes, path, hnodup, s, hwaiting, hsteps, hbytes, left, hleft
  | .unary _ _ _, w, h, scopes, path, hnodup, s, hwaiting, hsteps, hbytes, left, hleft => by
    rcases Expr.constant?_cases h with ⟨_, _, _, heq, -⟩ | ⟨hw, hsingle⟩
    · cases heq
    · obtain ⟨hpaths, hforcings, hcharges, hlevels⟩ := Value.paths_of_no_object hw path
      rw [hsingle] at hwaiting
      rw [hforcings] at hsteps ⊢
      rw [hcharges] at hbytes ⊢
      rw [hpaths]
      exact value_single host h (hwaiting _ (List.mem_singleton_self _)) hsteps hbytes
        (hlevels ▸ hleft)

/-- The properties of an object are forced one after another. -/
theorem forceMembers_constants : (ms : List Member) → {entries : List (String × Value)} →
    Member.constants? ms = some entries → (before : Object Value) →
    (Object.keys (before ++ entries)).Nodup → {scopes : List String} → {path : String} →
    (Value.entryPaths path entries).Nodup → {s : Store Suspension} →
    Waiting s (memberBindings scopes path ms) → Value.entriesForcings entries ≤ s.stepsLeft →
    Value.entriesCharges entries ≤ s.bytesLeft → (left : Nat) → Value.entriesLevels entries ≤ left →
    (inner : Inner) → (frame : Frame) → (count : Nat) →
    ∃ found count' s',
      s.exec (behaviour host) (forceMembers host left inner frame path before ms count).run =
        (.ok (found, count'), s') ∧
      Value.bareEntries found = Value.bareEntries before ++ entries ∧
      Spends (Value.entriesForcings entries) (Value.entriesCharges entries)
        (Value.entryPaths path entries) s s'
  | [], _, h, before, _, _, _, _, s, _, _, _, _, _, _, _, count => by
    cases h
    exact ⟨before, count, s, rfl, (List.append_nil _).symm, .refl s⟩
  | .property key e :: ms, entries, h, before, hkeys, scopes, path, hnodup, s, hwaiting, hsteps,
      hbytes, left, hleft, inner, frame, count => by
    obtain ⟨v, hv, h⟩ := Option.bind_eq_some_iff.mp h
    obtain ⟨entries, hentries, rfl⟩ := Option.map_eq_some_iff.mp h
    have hall : (Object.keys before ++ key :: Object.keys entries).Nodup := by
      simpa [Object.keys] using hkeys
    obtain ⟨-, hkeys', hapart⟩ := List.nodup_append.mp hall
    obtain ⟨hkey, hkeys'⟩ := List.nodup_cons.mp hkeys'
    rw [memberBindings, Member.isOverridden_of_constants? hentries hkey] at hwaiting
    obtain ⟨hfirst, hmore⟩ := Waiting.append hwaiting
    obtain ⟨hnodup, hnodup', hpaths⟩ := List.nodup_append.mp hnodup
    unfold Value.entriesForcings at hsteps ⊢
    unfold Value.entriesCharges at hbytes ⊢
    unfold Value.entriesLevels at hleft
    obtain ⟨found, s', hvalue, hfound, hspends⟩ := value_constant e hv hnodup hfirst (by omega)
      (by omega) left (by omega)
    have hmore := hspends.waiting hmore fun b hb hmem => by
      have hmem' : b.path ∈ Value.entryPaths path entries := by
        rw [← paths_memberBindings ms hentries hkeys' scopes]
        exact List.mem_map_of_mem hb
      exact hpaths _ hmem _ hmem' rfl
    have hsteps' := hspends.steps
    have hbytes' := hspends.bytes
    obtain ⟨all, count', s'', hrun, hentries', hspends'⟩ :=
      forceMembers_constants ms hentries (before ++ [(key, found)])
        (by simpa [Object.keys] using hkeys) hnodup' hmore (by omega) (by omega) left (by omega)
        inner frame count
    refine ⟨all, count', s'', ?_, ?_, hspends.trans hspends'⟩
    · have hnew : key ∉ Object.keys before := fun hmem => hapart key hmem key (by simp) rfl
      rw [exec_forceProperty host hvalue, Object.insert_new hnew]
      exact hrun
    · rw [hentries', Value.bareEntries_eq_map, Value.bareEntries_eq_map, List.map_append, ← hfound]
      simp
  | .spread _ :: _, _, h, _, _, _, _, _, _, _, _, _, _, _, _, _, _ => by cases h

end

/-! ## Loading -/

theorem waiting_addAll {bindings : List Suspension} (hnodup : (bindings.map (·.path)).Nodup)
    (hfree : ∀ b ∈ bindings, s.contains b.path = false) : Waiting (s.addAll bindings) bindings := by
  intro b hb
  have hnone : s.find? b.path = none := by simpa [contains_eq] using hfree b hb
  rw [find?_addAll, hnone, find?_path hnodup hb]
  rfl

/-- A document is loaded under a name if its paths are distinct and free, and then its bindings
wait. -/
theorem Session.loadSource_free {s : Session} {bytes : Bytes} {root : Expr} (name : String)
    (hparse : parse s.host.maxParseDepth bytes = .ok root)
    (hnodup : ((documentBindings name root).map (·.path)).Nodup)
    (hfree : ∀ path ∈ (documentBindings name root).map (·.path), s.store.contains path = false) :
    s.loadSource name bytes =
        (.ok (), { s with store := s.store.addAll (documentBindings name root) }) ∧
      Waiting (s.store.addAll (documentBindings name root)) (documentBindings name root) := by
  have hnone : firstTaken s.store.contains [] ((documentBindings name root).map (·.path)) = none :=
    firstTaken_eq_none.mpr ⟨hnodup, fun path hpath => ⟨hfree path hpath, List.not_mem_nil⟩⟩
  refine ⟨?_, waiting_addAll hnodup fun b hb => hfree b.path (List.mem_map_of_mem hb)⟩
  unfold Session.loadSource Session.attempt
  simp only [hparse, exec_loadDocument, hnone]
  rfl

/-- A constant is loaded under a name if its paths are distinct and free, and its value is what it
says if steps, bytes and levels are enough for it. -/
theorem Session.value_of_constant {s : Session} {bytes : Bytes} {root : Expr} {w : Value}
    (name : String) (hparse : parse s.host.maxParseDepth bytes = .ok root)
    (hroot : root.constant? = some w) (hnodup : (w.paths name).Nodup)
    (hfree : ∀ path ∈ w.paths name, s.store.contains path = false)
    (hsteps : w.forcings ≤ s.store.stepsLeft) (hbytes : w.charges ≤ s.store.bytesLeft)
    (hlevels : w.levels ≤ s.host.maxDepth) :
    ∃ loaded v after, s.loadSource name bytes = (.ok (), loaded) ∧
      loaded.value name = (.ok v, after) ∧ v.bare = w := by
  have hpaths := paths_bindingsAt root hroot [] name
  obtain ⟨hload, hwaiting⟩ := Session.loadSource_free name hparse (hpaths ▸ hnodup) (hpaths ▸ hfree)
  obtain ⟨v, s', hvalue, hv, -⟩ :=
    value_constant s.host root hroot hnodup hwaiting hsteps hbytes _ hlevels
  refine ⟨_, v, { s with store := s' }, hload, ?_, hv⟩
  simp only [Session.value, hvalue]

end LazyConfig
