-- Calls to a session, one after another, whatever they end with.
-- Main statement: what every call keeps holds of all sessions that calls lead to.
import LazyConfig.Session

namespace LazyConfig.Session

/-- What a client may ask of a session. -/
inductive Call where
  | loadSource (name : String) (bytes : Bytes)
  | loadFile (path : String)
  | value (path : String)

/-- The names that documents are loaded under. -/
def Call.LoadsAs (c : Call) (name : String) : Prop := ∃ bytes, c = .loadSource name bytes

/-- What a call is answered. -/
inductive Answer where
  | loaded
  | name (name : String)
  | value (v : Value)

def call (s : Session) : Call → Except Failure Answer × Session
  | .loadSource name bytes => (s.loadSource name bytes).map (·.map fun _ => .loaded) id
  | .loadFile path => (s.loadFile path).map (·.map .name) id
  | .value path => (s.request path).map (·.map .value) id

/-- The session after calls, whatever they end with. -/
def perform (s : Session) : List Call → Session
  | [] => s
  | c :: later => (s.call c).2.perform later

/-- What every call keeps, calls one after another keep. -/
theorem perform_keeps {P : Session → Prop} {calls : List Call}
    (hcall : ∀ c ∈ calls, ∀ s, P s → P (s.call c).2) {s : Session} (hs : P s) :
    P (s.perform calls) := by
  induction calls generalizing s with
  | nil => exact hs
  | cons c later ih =>
    obtain ⟨hc, hlater⟩ := List.forall_mem_cons.mp hcall
    exact ih hlater (hc s hs)

/-! ## What a call comes down to -/

theorem call_loadSource (s : Session) (name : String) (bytes : Bytes) :
    (s.call (.loadSource name bytes)).2 =
      match parse s.host.maxParseDepth bytes with
      | .error _ => s
      | .ok root => { s with
          store := (s.store.exec (behaviour s.host) (Attempt.loadDocument name root).run).2 } := by
  show (s.loadSource name bytes).2 = _
  unfold loadSource attempt
  cases parse s.host.maxParseDepth bytes <;> rfl

theorem call_loadFile (s : Session) (path : String) :
    (s.call (.loadFile path)).2 = { s with
      store := (s.store.exec (behaviour s.host) (Attempt.loadFile s.host path).run).2 } := rfl

theorem call_value (s : Session) (path : String) :
    (s.call (.value path)).2 = { s with
      store := (s.store.value (behaviour s.host) s.host.maxDepth path).2 } := rfl

end LazyConfig.Session
