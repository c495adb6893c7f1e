-- Sessions with a document in which a parameter of a lambda has another name. The lambdas that
-- calls find, keep and hand on correspond to one another in both sessions, and no call shows more
-- of a lambda than that it is one.
-- Main statement: renaming a parameter changes nothing that shows, whatever is called.
import LazyConfig.Proofs.Document.Renaming
import LazyConfig.Proofs.Session.Calls

namespace LazyConfig

open Store

/-! ## What shows -/

/-- How far a binding is, with its value as text. -/
inductive PrintedState where
  | unevaluated
  | inProgress
  | evaluated (text : String)
  deriving DecidableEq

def BindingState.printed : BindingState → PrintedState
  | unevaluated => .unevaluated
  | inProgress => .inProgress
  | evaluated v => .evaluated v.text

namespace Session

/-- An answer, with its value as text. -/
inductive Printed where
  | loaded
  | name (name : String)
  | value (text : String)
  deriving DecidableEq

def Answer.printed : Answer → Printed
  | loaded => .loaded
  | name n => .name n
  | value v => .value v.text

/-- What is left of the quotas, and the bindings in the order of definition, with their states. -/
structure View where
  stepsLeft : Nat
  bytesLeft : Nat
  bindings : List (String × PrintedState)
  deriving DecidableEq

def view (s : Session) : View :=
  ⟨s.store.stepsLeft, s.store.bytesLeft, s.store.bindings.map fun b => (b.name, b.state.printed)⟩

/-- What calls one after another show: how each of them ends, and the session after it. -/
def observe (s : Session) : List Call → List (Except Failure Printed × View)
  | [] => []
  | c :: later =>
    let (result, s') := s.call c
    (result.map Answer.printed, s'.view) :: s'.observe later

/-- What loading a tree as a document and calls after it show. -/
def observeDocument (s : Session) (name : String) (root : Expr) (calls : List Call) :
    List (Except Failure Printed × View) :=
  let (result, s') := s.attempt (Attempt.loadDocument name root)
  ((result.mapError .evaluation).map fun _ => .loaded, s'.view) :: s'.observe calls

/-- A source is loaded as the tree that it is read as. -/
theorem observe_loadSource {s : Session} {bytes : Bytes} {root : Expr}
    (h : parse s.host.maxParseDepth bytes = .ok root) (name : String) (calls : List Call) :
    s.observe (.loadSource name bytes :: calls) = s.observeDocument name root calls := by
  have hload : s.loadSource name bytes =
      ((s.attempt (Attempt.loadDocument name root)).1.mapError .evaluation,
        (s.attempt (Attempt.loadDocument name root)).2) := by
    simp only [loadSource, h]
  simp only [observe, call, hload, observeDocument, Prod.map]
  cases (s.attempt (Attempt.loadDocument name root)).1 <;> rfl

/-! ## Sessions that are alike -/

/-- Sessions with the same host, and stores that are the same up to the names of parameters. -/
structure Alpha (s s' : Session) : Prop where
  host_eq : s.host = s'.host
  stores : alphaLikeness.Stores s.store s'.store

variable {s s' : Session} {α β : Type} {R : α → β → Prop}

theorem alpha_refl (s : Session) : s.Alpha s :=
  ⟨rfl, .refl Suspension.alpha_refl Value.alpha_refl s.store⟩

theorem printed_eq_of_alike {state state' : BindingState} (h : alphaLikeness.State state state') :
    state.printed = state'.printed := by
  cases h with
  | unevaluated => rfl
  | inProgress => rfl
  | evaluated hv => exact congrArg PrintedState.evaluated (Value.Alpha.text_eq hv)

theorem Alpha.view_eq (h : s.Alpha s') : s.view = s'.view := by
  have hbindings : s.store.bindings.map (fun b => (b.name, b.state.printed)) =
      s'.store.bindings.map fun b => (b.name, b.state.printed) := by
    have hbs := h.stores.bindings
    generalize s.store.bindings = bs, s'.store.bindings = bs' at hbs
    induction hbs with
    | nil => rfl
    | cons hb _ ih =>
      rw [List.map_cons, List.map_cons, ih, hb.name_eq, printed_eq_of_alike hb.state]
  simp only [view, h.stores.stepsLeft_eq, h.stores.bytesLeft_eq, hbindings]

theorem Alpha.attempt {x : Attempt α} {y : Attempt β} (h : s.Alpha s')
    (hxy : Attempt.Parallel s.host R x y) :
    EndAlike R (s.attempt x).1 (s'.attempt y).1 ∧ (s.attempt x).2.Alpha (s'.attempt y).2 := by
  obtain ⟨host, store⟩ := s
  obtain ⟨_, store'⟩ := s'
  obtain ⟨rfl, hstores⟩ := h
  obtain ⟨hresult, hafter⟩ := hxy store store' hstores
  exact ⟨hresult, rfl, hafter⟩

theorem printed_eq_of_values {r r' : Except EvalError Value} (h : EndAlike Value.Alpha r r') :
    ((r.mapError Failure.evaluation).map Answer.value).map Answer.printed =
      ((r'.mapError Failure.evaluation).map Answer.value).map Answer.printed := by
  cases h with
  | ok hv => exact congrArg (fun text => Except.ok (Printed.value text)) hv.text_eq
  | error e => rfl

/-- A call shows the same in sessions that are alike, and leaves them alike. -/
theorem Alpha.call (h : s.Alpha s') (c : Call) :
    (s.call c).1.map Answer.printed = (s'.call c).1.map Answer.printed ∧
      (s.call c).2.Alpha (s'.call c).2 := by
  cases c with
  | loadSource name bytes =>
    simp only [Session.call, loadSource, ← h.host_eq]
    cases parse s.host.maxParseDepth bytes with
    | error e => exact ⟨rfl, h⟩
    | ok root =>
      have hself : root.Alpha [] root := Expr.alpha_refl Pairing.diagonal_nil root
      obtain ⟨hresult, hafter⟩ := h.attempt (Attempt.parallel_loadDocument name hself)
      dsimp only
      rw [hresult.eq]
      exact ⟨rfl, hafter⟩
  | loadFile path =>
    obtain ⟨hresult, hafter⟩ := h.attempt (Attempt.parallel_loadFile path)
    simp only [Session.call, loadFile, ← h.host_eq, hresult.eq]
    exact ⟨rfl, hafter⟩
  | value path =>
    have hvalue (s : Session) : s.value path = s.attempt (Attempt.value s.host.maxDepth path) := rfl
    obtain ⟨hresult, hafter⟩ := h.attempt ((parallel_at s.host s.host.maxDepth).value path)
    simp only [Session.call, request, hvalue, ← h.host_eq]
    exact ⟨printed_eq_of_values hresult, hafter⟩

/-- So do calls one after another. -/
theorem Alpha.observe_eq (h : s.Alpha s') (calls : List Call) :
    s.observe calls = s'.observe calls := by
  induction calls generalizing s s' with
  | nil => rfl
  | cons c later ih =>
    obtain ⟨hresult, hafter⟩ := h.call c
    simp only [observe, hresult, hafter.view_eq, ih hafter]

/-- Documents that are the same up to the names of parameters show the same. -/
theorem observeDocument_eq_of_alpha (s : Session) (name : String) {root root' : Expr}
    (h : root.Alpha [] root') (calls : List Call) :
    s.observeDocument name root calls = s.observeDocument name root' calls := by
  obtain ⟨hresult, hafter⟩ := (alpha_refl s).attempt (Attempt.parallel_loadDocument name h)
  simp only [observeDocument, hresult.eq, hafter.view_eq, hafter.observe_eq calls]

/-! ## The law -/

/-- Renaming a parameter changes nothing. Take any session, with any host, quotas and documents
loaded before, and any tree, which is loaded as a document. Take any lambda in the tree, by its
position, and call its parameter `x` by a name `y` which is neither an identifier nor a parameter of
the tree, in the list of parameters and wherever the body means this parameter. The name may be a
key of the tree or that of a builtin, which nothing in the tree can mean by it. Then loading the
document and all calls after it end the same, with the same values as text or the same failures, and
leave the same of the quotas and the same states of the same bindings. -/
theorem renaming_a_parameter_changes_nothing (s : Session) (name : String) {root : Expr}
    {x y : String} (position : List Nat) (hy : y ∉ root.names) (calls : List Call) :
    s.observeDocument name (root.renameAt x y position) calls = s.observeDocument name root calls :=
  (observeDocument_eq_of_alpha s name
    (Expr.alpha_renameAt position Pairing.diagonal_nil hy) calls).symm

/-- A session without files. -/
def emptySession : Session := .new ⟨.memory [], Sha256.digest, 64, 100⟩ {}

/-- Two lambdas inside a lambda, the first with a parameter that hides a property, the second with a
parameter of the same name as the one around it. -/
def shadowing (a : String) : Bytes :=
  Utf8.encode ("\x7bn:'l',p:(" ++ a ++ ")=>(n)=>[" ++ a ++ ",n,(a)=>a],r:p('x')('y')\x7d")

def shadowingRoot (a : String) : Expr :=
  .object ⟨0, 46⟩ [.property "n" (.string ⟨3, 6⟩ "l"),
    .property "p" (.lambda ⟨9, 31⟩ [a] (.lambda ⟨14, 31⟩ ["n"] (.array ⟨19, 31⟩
      [.identifier ⟨20, 21⟩ a, .identifier ⟨22, 23⟩ "n",
        .lambda ⟨24, 30⟩ ["a"] (.identifier ⟨29, 30⟩ "a")]))),
    .property "r" (.call ⟨34, 45⟩ (.call ⟨34, 40⟩ (.identifier ⟨34, 35⟩ "p")
      [.string ⟨36, 39⟩ "x"]) [.string ⟨41, 44⟩ "y"])]

/-- The outer parameter is renamed where it is meant, and not in the lambda that has its own. The
document goes on to give out the same. -/
theorem renaming_a_parameter_changes_nothing_in_shadowing :
    "b" ∉ (shadowingRoot "a").names ∧
      (shadowingRoot "a").renameAt "a" "b" [1] = shadowingRoot "b" ∧
      ((emptySession.observe [.loadSource "m" (shadowing "a"), .value "m.r"]).map (·.1)) =
        [.ok .loaded, .ok (.value "[\"x\", \"y\", <function <lambda>>]")] ∧
      emptySession.observe [.loadSource "m" (shadowing "b"), .value "m.r"] =
        emptySession.observe [.loadSource "m" (shadowing "a"), .value "m.r"] := by
  have hfresh : "b" ∉ (shadowingRoot "a").names := by decide
  have hrenamed : (shadowingRoot "a").renameAt "a" "b" [1] = shadowingRoot "b" := rfl
  have ha : parse emptySession.host.maxParseDepth (shadowing "a") =
      .ok (shadowingRoot "a") := by decide +kernel
  have hb : parse emptySession.host.maxParseDepth (shadowing "b") =
      .ok (shadowingRoot "b") := by decide +kernel
  refine ⟨hfresh, hrenamed, by decide +kernel, ?_⟩
  rw [observe_loadSource ha, observe_loadSource hb, ← hrenamed]
  exact renaming_a_parameter_changes_nothing emptySession "m" [1] hfresh [.value "m.r"]

end Session

end LazyConfig
