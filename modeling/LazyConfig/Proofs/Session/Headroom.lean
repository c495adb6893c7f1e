-- Sessions with larger quotas and a larger depth limit. Calls that none of them stops answer the
-- same with more, spend the same, and leave the session the same but for what is left.
-- Main statement: larger limits change nothing unless some call runs into one of the smaller ones.
import LazyConfig.Proofs.Document.Headroom
import LazyConfig.Proofs.Session.Calls
import Mathlib.Data.List.TakeWhile

namespace LazyConfig

open Store

/-! ## Calls -/

/-- What was used up between two moments of a store. Neither quota ever grows. -/
def Store.spent {T : Type} (s s' : Store T) : Limits :=
  ⟨s.stepsLeft - s'.stepsLeft, s.bytesLeft - s'.bytesLeft⟩

theorem spent_widen {T : Type} (room : Limits) (s s' : Store T) :
    (s.widen room).spent (s'.widen room) = s.spent s' := by
  simp only [Store.spent, widen, Nat.add_sub_add_right]

namespace Session

/-- How a call ends, and what it used up. -/
structure Outcome where
  result : Except Failure Answer
  spent : Limits

/-- Whether a quota or the depth limit stopped the call. -/
def Outcome.exceeds (o : Outcome) : Bool :=
  match o.result with
  | .ok _ => false
  | .error f => f.kind = .resource

/-- The outcomes of calls one after another, whatever they end with. -/
def outcomes (s : Session) : List Call → List Outcome
  | [] => []
  | c :: later =>
    let (result, s') := s.call c
    ⟨result, s.store.spent s'.store⟩ :: s'.outcomes later

theorem length_outcomes (s : Session) (calls : List Call) :
    (s.outcomes calls).length = calls.length := by
  induction calls generalizing s with
  | nil => rfl
  | cons c later ih => simp [outcomes, ih]

end Session

/-! ## One call in two sessions -/

theorem EvalError.failureKind_of_isResource {e : EvalError} (h : e.isResource = true) :
    e.failureKind = .resource := by
  cases e <;> first | rfl | cases h

namespace Widening

variable {w : Widening} {α β : Type}

/-- A session on the host. -/
def narrow (w : Widening) (s : Store Suspension) : Session := ⟨w.host, s⟩

/-- The session as it were with the additional levels and quotas from the beginning. -/
def widened (w : Widening) (s : Store Suspension) : Session := ⟨w.wide, s.widen w.room⟩

/-- How a call may go in the two sessions: the same way, or the first one is stopped. -/
inductive InStep (w : Widening) :
    Except Failure α × Session → Except Failure α × Session → Prop
  | same (r : Except Failure α) (s : Store Suspension) : InStep w (r, w.narrow s) (r, w.widened s)
  | stopped {f : Failure} {s : Session} {out : Except Failure α × Session}
      (h : f.kind = .resource) : InStep w (.error f, s) out

theorem InStep.map {out out' : Except Failure α × Session} (h : w.InStep out out') (g : α → β) :
    w.InStep (out.map (·.map g) id) (out'.map (·.map g) id) := by
  cases h with
  | same r s => exact .same (r.map g) s
  | stopped h => exact .stopped h

theorem Abridges.inStep {x y : Attempt α} (h : w.Abridges x y) (s : Store Suspension) :
    w.InStep (((w.narrow s).attempt x).map (·.mapError .evaluation) id)
      (((w.widened s).attempt y).map (·.mapError .evaluation) id) := by
  have hs := h s
  unfold Session.attempt narrow widened
  dsimp only
  generalize s.exec (behaviour w.host) x.run = out,
    (s.widen w.room).exec (behaviour w.wide) y.run = out' at hs ⊢
  cases hs with
  | whole r s' => exact .same (r.mapError .evaluation) s'
  | cut h => exact .stopped (EvalError.failureKind_of_isResource h)

theorem inStep_loadSource (s : Store Suspension) (name : String) (bytes : Bytes) :
    w.InStep ((w.narrow s).loadSource name bytes) ((w.widened s).loadSource name bytes) := by
  unfold Session.loadSource
  have hwide : (w.widened s).host.maxParseDepth = (w.narrow s).host.maxParseDepth := rfl
  rw [hwide]
  cases parse (w.narrow s).host.maxParseDepth bytes with
  | error e => exact .same (.error (.source e)) s
  | ok root => exact (abridges_loadDocument name root).inStep s

theorem inStep_call (s : Store Suspension) (c : Session.Call) :
    w.InStep ((w.narrow s).call c) ((w.widened s).call c) := by
  cases c with
  | loadSource name bytes => exact (inStep_loadSource s name bytes).map _
  | loadFile path => exact ((abridges_loadFile path).inStep s).map _
  | value path => exact (((w.abridges_at w.host.maxDepth).value path).inStep s).map _

/-! ## Many calls -/

/-- Up to the first call that is stopped, the outcomes with more are the same. -/
theorem outcomes_before_stopped (s : Store Suspension) (calls : List Session.Call) :
    (((w.narrow s).outcomes calls).takeWhile fun o => !o.exceeds) <+:
      (w.widened s).outcomes calls := by
  induction calls generalizing s with
  | nil => exact List.nil_prefix
  | cons c later ih =>
    have hcall := inStep_call (w := w) s c
    unfold Session.outcomes
    generalize (w.narrow s).call c = out, (w.widened s).call c = out' at hcall ⊢
    cases hcall with
    | same r s' =>
      have hspent : (w.widened s).store.spent (w.widened s').store =
          (w.narrow s).store.spent (w.narrow s').store := spent_widen w.room s s'
      simp only [hspent]
      rw [List.takeWhile_cons]
      split
      · exact List.cons_prefix_cons.mpr ⟨rfl, ih s'⟩
      · exact List.nil_prefix
    | stopped h =>
      rw [List.takeWhile_cons_of_neg (by simp [Session.Outcome.exceeds, h])]
      exact List.nil_prefix

end Widening

/-! ## The law -/

/-- Quotas only cut off. Take any storage, digest and limit of the depth of sources, and two
choices of the depth limit and both quotas of which the second is nowhere smaller. If none of the
calls is stopped by a limit in a new session with the first choice, then in a new session with the
second one each has the same outcome, the same name or value or the same failure, and uses up as
many steps and as much of the cost. -/
theorem quotas_only_cut_off {host : Host} {depth : Nat} {limits limits' : Limits}
    {calls : List Session.Call} (hdepth : host.maxDepth ≤ depth)
    (hsteps : limits.steps ≤ limits'.steps) (hbytes : limits.bytes ≤ limits'.bytes)
    (h : ∀ o ∈ (Session.new host limits).outcomes calls, o.exceeds = false) :
    (Session.new { host with maxDepth := depth } limits').outcomes calls =
      (Session.new host limits).outcomes calls := by
  let w : Widening := ⟨host, depth - host.maxDepth,
    ⟨limits'.steps - limits.steps, limits'.bytes - limits.bytes⟩⟩
  have hnarrow : w.narrow (.empty limits) = Session.new host limits := rfl
  have hwide : w.widened (.empty limits) = Session.new { host with maxDepth := depth } limits' := by
    simp only [w, Widening.widened, Widening.wide, Session.new, widen, Store.empty,
      Nat.add_sub_cancel' hdepth, Nat.add_sub_cancel' hsteps, Nat.add_sub_cancel' hbytes]
  have hall : ((Session.new host limits).outcomes calls).takeWhile (fun o => !o.exceeds) =
      (Session.new host limits).outcomes calls :=
    List.takeWhile_eq_self_iff.mpr (by simpa using h)
  have hshared := Widening.outcomes_before_stopped (w := w) (.empty limits) calls
  rw [hnarrow, hwide, hall] at hshared
  apply (hshared.eq_of_length _).symm
  rw [Session.length_outcomes, Session.length_outcomes]

/-- A host with one file, which holds a text, and little depth. -/
def shallowHost : Host where
  storage := .memory [("l", Utf8.encode "'x'")]
  maxDepth := 5

/-- Loads a document that includes the file, and asks for a cycle, for the result of a lambda and
for all of it. -/
def thriftyCalls : List Session.Call :=
  [.loadSource "m" (Utf8.encode "\x7ba:b,b:include('l'),c:c,d:((s)=>s+a)('y')\x7d"),
    .loadFile "l", .value "m.c", .value "m.d", .value "m"]

/-- None of the calls is stopped, though they use up all steps, all bytes and all levels, and they
do the same with the usual limits. -/
theorem quotas_only_cut_off_for_thriftyCalls :
    (∀ o ∈ (Session.new shallowHost ⟨7, 5⟩).outcomes thriftyCalls, o.exceeds = false) ∧
      ((Session.new shallowHost ⟨7, 5⟩).outcomes thriftyCalls).map (·.spent) =
        [⟨0, 0⟩, ⟨0, 0⟩, ⟨1, 0⟩, ⟨4, 5⟩, ⟨2, 0⟩] ∧
      (Session.new { shallowHost with maxDepth := 64 } {}).outcomes thriftyCalls =
        (Session.new shallowHost ⟨7, 5⟩).outcomes thriftyCalls := by
  have hnone : ∀ o ∈ (Session.new shallowHost ⟨7, 5⟩).outcomes thriftyCalls,
      o.exceeds = false := by decide +kernel
  exact ⟨hnone, by decide +kernel,
    quotas_only_cut_off (by decide) (by decide) (by decide) hnone⟩

end LazyConfig
