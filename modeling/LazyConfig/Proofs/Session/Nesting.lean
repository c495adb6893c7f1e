-- Requests end, and nest no deeper than the documents and the levels allow. Nothing counts down by
-- itself: lambdas recur without taking steps, forcings start on larger expressions, and includes
-- load documents while the request is under way.
-- Main statement: an evaluator that recurs on fuel needs no more than this, and answers as the
-- session does.
import LazyConfig.Proofs.Document.Descent
import LazyConfig.Proofs.Session.Documents
import LazyConfig.Proofs.Session.Failures

namespace LazyConfig

open Store

/-- A request by the evaluator that recurs on fuel, which has no answer if the evaluator gives
up. -/
def Session.evaluate (s : Session) (fuel : Nat) (path : String) :
    Option (Except EvalError Value × Session) :=
  ((Watching.evaluate s.host fuel [] (.request s.host.maxDepth path) 0).run.run s.store).map
    fun (r, store) => (r.map (·.1), { s with store })

/-- In all sessions the bodies of lambdas that are kept are written in documents that are loaded. -/
theorem fits_perform (host : Host) (limits : Limits) (calls : List Session.Call) :
    ((Session.new host limits).perform calls).host = host ∧
      (stature host).fits ((Session.new host limits).perform calls).store :=
  Session.fits_perform_of_lasts (stature_lasts host) (fun _ _ _ _ _ _ _ _ => trivial) rfl
    (fits_empty host limits)

/-- With enough fuel the evaluator answers as the session does. -/
theorem Session.evaluate_eq {s : Session} (hs : (stature s.host).fits s.store) {fuel : Nat}
    {path : String}
    (hfuel : (s.host.maxDepth + 1) * ((s.value path).2.store.height + 3) ≤ fuel) :
    s.evaluate fuel path = some (s.value path) := by
  have hadmitted : (Activity.request s.host.maxDepth path).Admitted s.host s.store
      ([] : List Measure).length := by
    refine ⟨trivial, Nat.le_refl _, ?_⟩
    show 0 + 2 ≤ (s.host.maxDepth - s.host.maxDepth + 1) * (s.store.height + 3)
    rw [Nat.sub_self]
    omega
  have hfollows := follows_evaluate hs hadmitted (List.isChain_singleton _) hfuel 0
  rw [exec_request] at hfollows
  unfold evaluate
  rw [hfollows (Nat.le_refl _)]
  show some _ = some ((s.store.value (behaviour s.host) s.host.maxDepth path).1, _)
  cases (s.store.value (behaviour s.host) s.host.maxDepth path).1 <;> rfl

/-- In a session on any host with any limits, after any calls, every request is answered, by an
evaluator that recurs on fuel and on nothing else: with as much of it as the levels times the height
of the documents that are loaded at the end, and three for each level, it ends as the session does.
So it never gives up: at every moment all that is under way descends by the steps and levels left
and the size of the expression, compared in this order, and is no more than the levels times the
height of the documents loaded so far, and three for each level. That height is the one of the
tallest document: each that is loaded raises it to its own. -/
theorem requests_end_within_bounds (host : Host) (limits : Limits) (calls : List Session.Call)
    (path : String) (spare : Nat) :
    let s := (Session.new host limits).perform calls
    s.evaluate ((host.maxDepth + 1) * ((s.value path).2.store.height + 3) + spare) path =
        some (s.value path) ∧
      (Store.empty limits : Store Suspension).height = 0 ∧
      ∀ (store : Store Suspension) (name : String) (root : Expr),
        (store.exec (behaviour host) (Attempt.loadDocument name root).run).1 = .ok () →
          (store.exec (behaviour host) (Attempt.loadDocument name root).run).2.height =
            max store.height root.height := by
  refine ⟨?_, rfl, fun store name root hload => ?_⟩
  · obtain ⟨hhost, hs⟩ := fits_perform host limits calls
    generalize (Session.new host limits).perform calls = s at hhost hs ⊢
    subst hhost
    exact Session.evaluate_eq hs (Nat.le_add_right _ spare)
  · rw [exec_loadDocument] at hload ⊢
    split at hload
    · exact height_addAll_documentBindings store name root
    · cases hload

/-- A lambda that calls itself for ever is stopped by the levels. The evaluator does not get so far
with eight units of fuel. -/
example :
    let host : Host := { storage := .memory [], maxDepth := 3 }
    let s := (Session.new host {}).perform
      [.loadSource "m" (Utf8.encode "\x7bf:(x)=>f(x),a:f(1)\x7d")]
    s.store.height = 4 ∧ (s.evaluate 8 "m.a").isNone ∧
      (s.evaluate (4 * (4 + 3)) "m.a").map (failure? ·.1) = some (some (.stackOverflow 4 3)) := by
  decide +kernel

end LazyConfig
