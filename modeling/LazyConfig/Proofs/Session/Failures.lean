-- Requests that fail. A failed request is not kept, so the next one for the same path evaluates it
-- once more, with more values kept and more files included than before; it still walks into the
-- same wall. A document whose name goes on after the name of a file can see the file appear in its
-- own scope.
-- Main statements: a failed request fails again in the same way, or for want of steps, and a
-- document that finds itself in another's scope the second time.
import LazyConfig.Proofs.Document.Replay
import LazyConfig.Proofs.Session.Calls
import LazyConfig.Proofs.Session.Requests

namespace LazyConfig

open Store

variable {host : Host}

/-! ## Every session -/

/-- A session on the host, with closed scopes. -/
structure Session.Firm (host : Host) (limits : Limits) (s : Session) : Prop where
  host_eq : s.host = host
  limits_eq : s.store.limits = limits
  firm : host.Firm s.store

theorem firm_empty (host : Host) (limits : Limits) :
    (Session.new host limits).Firm host limits := by
  refine ⟨rfl, rfl, ?_, ?_, [], disciplined_empty limits⟩ <;> intros <;> contradiction

theorem Shows.firm {α : Type} {good : Store Suspension → α → Prop} {s : Store Suspension}
    {x : Attempt α} {out : Except EvalError α × Store Suspension} (h : Shows host good s x out) :
    host.Firm out.2 ∧ out.2.limits = s.limits := by
  cases h with
  | ok firm grows _ _ => exact ⟨firm, grows.limits⟩
  | error firm grows _ => exact ⟨firm, grows.limits⟩

/-- A request shows again. -/
theorem shows_value {s : Session} (h : s.host.Firm s.store) (path : String) :
    Shows s.host s.host.footing.Sound s.store (Attempt.value s.host.maxDepth path)
      (s.store.value (behaviour s.host) s.host.maxDepth path) :=
  (replays_at s.host s.host.maxDepth).value h trivial

/-- An attempt that failed, made again right afterwards. -/
theorem Shows.again {α : Type} {good : Store Suspension → α → Prop} {s s' : Store Suspension}
    {x : Attempt α} {e : EvalError} (h : Shows host good s x (.error e, s')) :
    FailsAgain e (s.stepsLeft - s'.stepsLeft) s' (s'.exec (behaviour host) x.run) := by
  cases h with
  | error _ _ again => exact again s' (.refl s')

theorem Session.Firm.call {limits : Limits} {s : Session} (h : s.Firm host limits)
    {c : Session.Call} (hnames : ∀ name, c.LoadsAs name → host.Heads name) :
    (s.call c).2.Firm host limits := by
  obtain ⟨rfl, hlimits, hfirm⟩ := h
  cases c with
  | loadSource name bytes =>
    rw [Session.call_loadSource]
    cases parse s.host.maxParseDepth bytes with
    | error e => exact ⟨rfl, hlimits, hfirm⟩
    | ok root =>
      dsimp only
      rw [exec_loadDocument]
      cases hfirst : firstTaken s.store.contains [] ((documentBindings name root).map (·.path)) with
      | some path => exact ⟨rfl, hlimits, hfirm⟩
      | none => exact ⟨rfl, hlimits, hfirm.addAll (hnames name ⟨bytes, rfl⟩) root hfirst⟩
  | loadFile path =>
    rw [Session.call_loadFile]
    have hshows : Replays s.host 0 String (fun _ _ => True) s.store fun _ =>
      Attempt.loadFile s.host path := replays_loadFile hfirm path
    obtain ⟨hfirm', hlimits'⟩ := hshows.firm
    exact ⟨rfl, hlimits'.trans hlimits, hfirm'⟩
  | value path =>
    rw [Session.call_value]
    have hshows := shows_value hfirm path
    obtain ⟨hfirm', hlimits'⟩ := hshows.firm
    exact ⟨rfl, hlimits'.trans hlimits, hfirm'⟩

/-! ## The law -/

/-- In a session on any host with any limits, after any calls whatever they ended with, where no
document was loaded under a name that goes on after the name of a file with a dot: a request that
fails, made again right afterwards, fails with the same error, the same numbers included, or because
fewer steps are left than the first one took. It never succeeds. -/
theorem failures_repeat {limits : Limits} {calls : List Session.Call} {s s' : Session}
    (hs : (Session.new host limits).perform calls = s)
    (hnames : ∀ c ∈ calls, ∀ name, c.LoadsAs name → host.Heads name) {path : String} {e : EvalError}
    (h : s.value path = (.error e, s')) :
    (s'.value path).1 = .error e ∨
      (s'.value path).1 = .error (.timeLimit limits.steps) ∧
        s'.store.stepsLeft < s.store.stepsLeft - s'.store.stepsLeft := by
  have hreached : s.Firm host limits := by
    rw [← hs]
    exact Session.perform_keeps (fun c hc s hs => hs.call (hnames c hc)) (firm_empty host limits)
  obtain ⟨rfl, hlimits, hfirm⟩ := hreached
  have hshows := shows_value hfirm path
  have hlimits' := hshows.firm.2
  have hresult : (s.value path).1 = .error e := by rw [h]
  obtain rfl : (s.value path).2 = s' := by rw [h]
  have hout : s.store.value (behaviour s.host) s.host.maxDepth path =
      (.error e, (s.value path).2.store) := Prod.ext hresult rfl
  rw [hout] at hshows hlimits'
  have hagain := hshows.again
  have hvalue : ((s.value path).2.value path).1 = ((s.value path).2.store.exec (behaviour s.host)
    (Attempt.value s.host.maxDepth path).run).1 := rfl
  rw [hvalue]
  generalize (s.value path).2.store.exec (behaviour s.host)
    (Attempt.value s.host.maxDepth path).run = out at hagain ⊢
  cases hagain with
  | same alike steps => exact Or.inl rfl
  | late alike steps => exact Or.inr ⟨by rw [hlimits', hlimits], steps⟩

/-- How a request fails, without the value that it would have. -/
def failure? {α : Type} : Except EvalError α → Option EvalError
  | .ok _ => none
  | .error e => some e

theorem failure?_eq_some {α : Type} {r : Except EvalError α} {e : EvalError} :
    failure? r = some e ↔ r = .error e := by
  cases r <;> simp [failure?]

/-- A document with a property that needs a file and then itself. -/
def lateCycle : List Session.Call :=
  [.loadSource "m" (Utf8.encode "\x7ba:[include('l'),b],b:a\x7d")]

/-- A session with six steps and the document. -/
def lateSession : Session := (Session.new oneFile ⟨6, 100⟩).perform lateCycle

/-- The first request takes three steps, and keeps the value of the file. Again the property is a
cycle, with two steps. -/
theorem failures_repeat_in_lateSession :
    (lateSession.value "m.a").1 = .error (.cycle "m.a") ∧
      ((lateSession.value "m.a").2.value "m.a").1 = .error (.cycle "m.a") := by
  have hnames : ∀ c ∈ lateCycle, ∀ name, c.LoadsAs name → oneFile.Heads name := by
    rintro c hc name ⟨bytes, rfl⟩
    cases List.mem_singleton.mp hc
    exact fun bytes hread hbelow => absurd hbelow (oneFile.spares_of_head (by decide) bytes hread)
  have hfails : (lateSession.value "m.a").1 = .error (.cycle "m.a") :=
    failure?_eq_some.mp (by decide +kernel)
  have hsteps : ¬ (lateSession.value "m.a").2.store.stepsLeft <
      lateSession.store.stepsLeft - (lateSession.value "m.a").2.store.stepsLeft := by decide +kernel
  refine ⟨hfails, ?_⟩
  rcases failures_repeat rfl hnames (Prod.ext hfails rfl) with hagain | ⟨_, hlate⟩
  · exact hagain
  · exact absurd hlate hsteps

/-! ## A name that goes on after the name of a file -/

/-- A file with a property whose key holds a dot, and a cycle. -/
def shadowing : Bytes := Utf8.encode "\x7b'x.include':(p)=>true,c:c\x7d"

/-- A host with the file. -/
def shadowingHost : Host := ⟨.memory [("f", shadowing)], Sha256.digest, 64, 100⟩

/-- The name of the file. -/
def shadowingName : String := "$7BrQfVxoN3nWD3LYmQuRw0Aj6gmfBkKkRH3QWejkkd5"

/-- A document under a name that goes on after the name of the file, which includes the file. -/
def shadowedSession : Session := (Session.new shadowingHost {}).perform
  [.loadSource (childPath shadowingName "x") (Utf8.encode "include('f')")]

/-- The first request includes the file and fails at its cycle. For the second one the file is
there, so that the name `include` stands for its property, and calling it gives `true`. -/
theorem a_failure_is_not_repeated :
    shadowingHost.contentName shadowing = shadowingName ∧
      (shadowedSession.value (childPath shadowingName "x")).1 =
        .error (.cycle (childPath shadowingName "c")) ∧
      ((shadowedSession.value (childPath shadowingName "x")).2.value
        (childPath shadowingName "x")).1 =
        .ok (.boolean true) := by
  exact ⟨by decide +kernel, failure?_eq_some.mp (by decide +kernel),
    eq_ok_of_boolean? (by decide +kernel)⟩

end LazyConfig
