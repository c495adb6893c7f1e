-- The objects that a session keeps, and the bindings of their properties.
-- Main statement: an object literal in property position that has a value shares the values of its
-- properties with their bindings, and all object literals put their entries together by one rule.
import LazyConfig.Proofs.Document.Members
import LazyConfig.Proofs.Session.Documents
import LazyConfig.Proofs.Session.Includes
import LazyConfig.Proofs.Session.Lexical

namespace LazyConfig

open Store

/-- In every session: if the binding of an object literal has a value, then the literal was
evaluated in a forcing on the way, with its members providing parts; the value is an object made of
these parts, each key once, in the order of the first parts that have it, with the value of the last
one; and the part of a property is the value that the binding of the property keeps. The part of a
spread are the entries of the object that it evaluated to then. A literal that is evaluated in place
is made of the parts of its members by the same rule. -/
theorem objects_agree_with_their_properties (host : Host) (limits : Limits)
    (calls : List Session.Call) :
    (∀ path b members v,
      let s := ((Session.new host limits).perform calls).store
      s.body? path = some b → b.task = .members members → s.state? path = some (.evaluated v) →
        ∃ (f : Forcing (behaviour host) limits (Session.client host calls) path v) (left made : Nat)
          (parts : List Part) (entries : Object Value),
          v = .object ⟨path, made⟩ entries ∧ MadeOf entries parts ∧
            f.body = b ∧ f.context = left + 1 ∧
            Provides host (askBelow host left ⟨path, b.scopes, []⟩ path) ⟨f.store.start path, 0⟩
              members parts ⟨f.after, made⟩ ∧
            List.Forall₂ (Member.AgreesBelow s path) members parts) ∧
    ∀ left frame span members p v p',
      Evaluation.Succeeds host
      (eval host left (innerOf host left) frame (.object span members)) p v p' →
        ∃ (made : Nat) (parts : List Part) (entries : Object Value),
          v = .object ⟨frame.owner, made⟩ entries ∧ MadeOf entries parts ∧
            Provides host (askInPlace host left frame) p members parts ⟨p'.store, made⟩ := by
  refine ⟨fun path b members v hbody htask hstate => ?_, ?_⟩
  · have hown := ((Session.origin_fits_perform host limits calls).2.1 path b hbody).1
    have hclient : ((Session.new host limits).perform calls).store =
        (exec (behaviour host) (Session.client host calls) (empty limits)).2 :=
      (Session.exec_client (Session.new host limits) calls).symm
    rw [hclient] at hbody hstate
    obtain ⟨f, hlater⟩ := exists_forcing hstate
    obtain ⟨_, _, hext⟩ := f.disciplined
    have hsame : f.body = b := by
      have hstart : (f.store.start path).body? path = some f.body :=
        (body?_mark _ _ _ _).trans (body?_of_reply f.reply)
      have hend := hlater.body? (hext.body? hstart)
      rw [hbody, Option.some.injEq] at hend
      exact hend.symm
    have hrun : (f.store.start path).exec (behaviour host) (behaviour host b f.context) =
        (.ok v, f.after) := by
      rw [← hsame]
      exact Prod.ext f.result rfl
    obtain ⟨left, made, parts, hcontext, hprovides, hv⟩ := provides_of_behaviour htask hrun
    rw [hown] at hprovides hv
    have hagree := (hprovides.agree ((disciplined_run f.run).start f.reply)).2
    refine ⟨f, left, made, parts, _, hv, madeOf_ofEntries parts, hsame, hcontext, hprovides, ?_⟩
    rw [hclient]
    exact hagree.imp fun m part h => h.later hlater
  · intro left frame span members p v p' h
    obtain ⟨s, made, parts, rfl, hprovides, hv⟩ := provides_of_eval h
    exact ⟨made, parts, _, hv, madeOf_ofEntries parts, hprovides⟩

/-- A document with a key that comes twice, and before that in the object of a spread. -/
def overlapping : Bytes := Utf8.encode "\x7ba:true,f(),a:null,f:()=>\x7bb:null,a:false\x7d\x7d"

/-- Loads the document, and asks for its value. -/
def overlappingCalls : List Session.Call := [.loadSource "m" overlapping, .value "m"]

/-- The keys of the members of an object literal, where they are properties. -/
def Suspension.memberKeys? (b : Suspension) : Option (List (Option String)) :=
  match b.task with
  | .members members => some (members.map Member.key?)
  | .expression _ => none

/-- The keys of an object that is kept. -/
def BindingState.keys? : BindingState → Option (List String)
  | .evaluated v => v.object?.map Object.keys
  | _ => none

/-- The document is kept as an object with three keys, the repeated one first, and its parts are
those of its four members. -/
theorem objects_agree_with_their_properties_in_overlapping :
    let s := ((Session.new fileless {}).perform overlappingCalls).store
    ∃ (b : Suspension) (members : List Member) (made : Nat) (entries : Object Value)
      (parts : List Part),
      s.body? "m" = some b ∧ b.task = .members members ∧
      members.map Member.key? = [some "a", none, some "a", some "f"] ∧
      s.state? "m" = some (.evaluated (.object ⟨"m", made⟩ entries)) ∧
      entries.keys = ["a", "b", "f"] ∧ MadeOf entries parts ∧
      List.Forall₂ (Member.AgreesBelow s "m") members parts := by
  intro s
  have hkeys : (s.body? "m").bind Suspension.memberKeys? =
      some [some "a", none, some "a", some "f"] := by
    decide +kernel
  have hkept : (s.state? "m").bind BindingState.keys? = some ["a", "b", "f"] := by decide +kernel
  obtain ⟨b, hbody, hb⟩ := Option.bind_eq_some_iff.mp hkeys
  obtain ⟨state, hstate, hv⟩ := Option.bind_eq_some_iff.mp hkept
  cases htask : b.task with
  | expression e => simp [Suspension.memberKeys?, htask] at hb
  | members members =>
    cases state with
    | evaluated v =>
      obtain ⟨f, left, made, parts, entries, rfl, hmade, _, _, _, hagree⟩ :=
        (objects_agree_with_their_properties fileless {} overlappingCalls).1 "m" b members v hbody
          htask hstate
      simp only [Suspension.memberKeys?, htask, Option.some.injEq] at hb
      exact ⟨b, members, made, entries, parts, hbody, htask, hb, hstate, Option.some.inj hv, hmade,
        hagree⟩
    | _ => cases hv

end LazyConfig
