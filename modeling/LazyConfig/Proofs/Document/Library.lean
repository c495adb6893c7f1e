-- What a session can ever bind: the documents loaded into it, and those in files, which are
-- added when they are included. The session may add the latter in any order, or never.
-- Main statements: a path stands for at most one binding, and a store that holds part of the
-- library finds the names of its scopes as if it held all of it.
import LazyConfig.Proofs.Codec.Js64
import LazyConfig.Proofs.Document.Loading
import LazyConfig.Proofs.Document.Paths
import LazyConfig.Proofs.Engine.Permanence
import Mathlib.Data.List.Nodup

namespace LazyConfig

/-! ## Bodies -/

namespace Store

variable {T : Type}

/-- The body of a binding. -/
def body? (s : Store T) (name : String) : Option T := (s.find? name).map (·.body)

theorem contains_eq_body? (s : Store T) (name : String) :
    s.contains name = (s.body? name).isSome := by
  rw [contains_eq, body?, Option.isSome_map]

theorem contains_of_body? {s : Store T} {name : String} {body : T}
    (h : s.body? name = some body) : s.contains name = true := by
  rw [contains_eq_body?, h]
  rfl

theorem body?_of_reply {s : Store T} {name : String} {body : T} (h : s.reply name = .run body) :
    s.body? name = some body := by
  obtain ⟨b, hf, _, hb, _⟩ := reply_eq_run.mp h
  rw [body?, hf, Option.map_some, hb]

theorem body?_mark (s : Store T) (name : String) (state : BindingState) (other : String) :
    (s.mark name state).body? other = s.body? other := by
  rw [body?, find?_mark, body?, Option.map_map]
  congr 1
  funext b
  simp only [Function.comp]
  split <;> rfl

theorem body?_finish (s : Store T) (name : String) (result : Except EvalError Value)
    (other : String) : (s.finish name result).2.body? other = s.body? other := by
  rcases finish_cases s name result with ⟨e, h⟩ | ⟨v, _, _, h⟩
  · rw [h]
    exact body?_mark s name .unevaluated other
  · rw [h]
    exact body?_mark s name (.evaluated v) other

theorem body?_addAll (s : Store Suspension) (bindings : List Suspension) (name : String) :
    (s.addAll bindings).body? name =
      (s.body? name).or (bindings.find? fun b => b.path = name) := by
  rw [body?, find?_addAll, body?, Option.map_or, Option.map_map]
  simp [Function.comp_def]

end Store

/-! ## Files -/

namespace Host

/-- The contents of some file. -/
def Readable (host : Host) (bytes : Bytes) : Prop :=
  ∃ path, host.storage.readBytes path = .ok bytes

/-- The digest tells the contents of files apart. -/
def CollisionFree (host : Host) : Prop :=
  ∀ bytes bytes', host.Readable bytes → host.Readable bytes' →
    host.digest bytes = host.digest bytes' → bytes = bytes'

/-- The bindings of a document in a file. -/
def fileBindings (host : Host) (bytes : Bytes) (root : Expr) : List Suspension :=
  documentBindings (host.contentName bytes) root

/-- Contents that can be loaded: they are a document, and none of its paths occurs twice. -/
structure Loadable (host : Host) (bytes : Bytes) (root : Expr) : Prop where
  readable : host.Readable bytes
  parsed : parse host.maxParseDepth bytes = .ok root
  nodup : ((host.fileBindings bytes root).map (·.path)).Nodup

variable {host : Host}

theorem Loadable.root_eq {bytes : Bytes} {root root' : Expr} (h : host.Loadable bytes root)
    (h' : parse host.maxParseDepth bytes = .ok root') : root' = root := by
  rw [h.parsed, Except.ok.injEq] at h'
  exact h'.symm

theorem dot_not_mem_contentName (host : Host) (bytes : Bytes) :
    '.' ∉ (host.contentName bytes).toList := Js64.dot_not_mem_encode (host.digest bytes)

theorem CollisionFree.bytes_eq (h : host.CollisionFree) {bytes bytes' : Bytes}
    (hread : host.Readable bytes) (hread' : host.Readable bytes')
    (hname : host.contentName bytes = host.contentName bytes') : bytes = bytes' :=
  h bytes bytes' hread hread' (Js64.encode_injective hname)

/-- A path is below the name of one file at most. -/
theorem CollisionFree.bytes_eq_of_below (h : host.CollisionFree) {bytes bytes' : Bytes}
    (hread : host.Readable bytes) (hread' : host.Readable bytes') {path : String}
    (hbelow : Below (host.contentName bytes) path)
    (hbelow' : Below (host.contentName bytes') path) : bytes = bytes' := by
  apply h.bytes_eq hread hread'
  have hnames := hbelow.of_below hbelow' (host.dot_not_mem_contentName bytes')
  exact hnames.eq_of_no_dot (host.dot_not_mem_contentName bytes)

end Host

/-! ## The library -/

/-- The documents of a session: a host with its files, and the store of what was loaded before
any value was asked for. No path of a loaded document is below the name of a file. -/
structure Library where
  host : Host
  loaded : Store Suspension
  collisionFree : host.CollisionFree
  own : ∀ {n b}, loaded.body? n = some b → b.path = n
  apart : ∀ {n b bytes}, loaded.body? n = some b → host.Readable bytes →
    ∀ path ∈ n :: b.scopes, ¬ Below (host.contentName bytes) path
  complete : ∀ {n b members key value}, loaded.body? n = some b → b.task = .members members →
    .property key value ∈ members → loaded.contains (childPath n key) = true

namespace Library

/-- The binding is of a loaded document, or of one in a file. -/
inductive Offers (L : Library) (b : Suspension) : Prop
  | loaded (h : L.loaded.body? b.path = some b)
  | file {bytes : Bytes} {root : Expr} (hfile : L.host.Loadable bytes root)
      (hb : b ∈ L.host.fileBindings bytes root)

variable {L : Library} {s : Store Suspension}

/-- What is offered below the name of a file is in the file. -/
theorem Offers.of_below {b : Suspension} (h : L.Offers b) {bytes : Bytes}
    (hread : L.host.Readable bytes) (hbelow : Below (L.host.contentName bytes) b.path) :
    ∃ root, L.host.Loadable bytes root ∧ b ∈ L.host.fileBindings bytes root := by
  cases h with
  | loaded hb => exact absurd hbelow (L.apart hb hread b.path List.mem_cons_self)
  | @file bytes' root hfile hb =>
    have hwithin := (within_documentBindings hb).path
    have heq := L.collisionFree.bytes_eq_of_below hread hfile.readable hbelow hwithin
    subst heq
    exact ⟨root, hfile, hb⟩

theorem Offers.eq_of_path {b b' : Suspension} (h : L.Offers b) (h' : L.Offers b')
    (hpath : b.path = b'.path) : b = b' := by
  cases h with
  | loaded hb =>
    cases h' with
    | loaded hb' =>
      rw [hpath, hb', Option.some.injEq] at hb
      exact hb.symm
    | file hfile' hb' =>
      have hbelow := (within_documentBindings hb').path
      rw [← hpath] at hbelow
      exact absurd hbelow (L.apart hb hfile'.readable b.path List.mem_cons_self)
  | @file bytes root hfile hb =>
    have hbelow := (within_documentBindings hb).path
    rw [hpath] at hbelow
    obtain ⟨root', hfile', hb'⟩ := h'.of_below hfile.readable hbelow
    obtain rfl := hfile.root_eq hfile'.parsed
    exact List.inj_on_of_nodup_map hfile.nodup hb hb' hpath

open Classical in
/-- The binding that a path stands for. -/
noncomputable def offer? (L : Library) (name : String) : Option Suspension :=
  if h : ∃ b, L.Offers b ∧ b.path = name then some h.choose else none

theorem offer?_eq_some {name : String} {b : Suspension} :
    L.offer? name = some b ↔ L.Offers b ∧ b.path = name := by
  unfold offer?
  constructor
  · intro h
    split at h
    · next hex =>
      rw [Option.some.injEq] at h
      exact h ▸ hex.choose_spec
    · exact absurd h (by simp)
  · rintro ⟨hb, hpath⟩
    have hex : ∃ b, L.Offers b ∧ b.path = name := ⟨b, hb, hpath⟩
    rw [dif_pos hex, Option.some.injEq]
    obtain ⟨hchosen, hpath'⟩ := hex.choose_spec
    exact hchosen.eq_of_path hb (hpath'.trans hpath.symm)

/-- Whether a path stands for a binding. -/
noncomputable def bound (L : Library) (name : String) : Bool := (L.offer? name).isSome

theorem bound_iff {name : String} : L.bound name = true ↔ ∃ b, L.Offers b ∧ b.path = name := by
  rw [bound, Option.isSome_iff_exists]
  simp only [offer?_eq_some]

/-! ## A store with a part of the library -/

/-- The store has all that was loaded, and files whole or not at all. -/
structure Holds (L : Library) (s : Store Suspension) : Prop where
  offered : ∀ {n b}, s.body? n = some b → L.offer? n = some b
  loaded : ∀ {n}, L.loaded.contains n = true → s.contains n = true
  whole : ∀ {bytes root}, L.host.Loadable bytes root → ∀ b ∈ L.host.fileBindings bytes root,
    ∀ b' ∈ L.host.fileBindings bytes root, s.contains b.path = true → s.contains b'.path = true

theorem Holds.congr (h : L.Holds s) {s' : Store Suspension} (hsame : ∀ n, s'.body? n = s.body? n) :
    L.Holds s' := by
  have hcontains : ∀ n, s'.contains n = s.contains n := by
    intro n
    rw [Store.contains_eq_body?, hsame, Store.contains_eq_body?]
  refine ⟨fun hb => h.offered (hsame _ ▸ hb), fun hn => ?_, fun hfile b hb b' hb' hc => ?_⟩
  · rw [hcontains]
    exact h.loaded hn
  · rw [hcontains] at hc ⊢
    exact h.whole hfile b hb b' hb' hc

theorem Holds.bound (h : L.Holds s) {name : String} (hc : s.contains name = true) :
    L.bound name = true := by
  rw [Store.contains_eq_body?, Option.isSome_iff_exists] at hc
  obtain ⟨b, hb⟩ := hc
  rw [Library.bound, h.offered hb]
  rfl

/-- Every name that the library has in the scope is in the store. -/
def Settled (L : Library) (s : Store Suspension) (scope : String) : Prop :=
  ∀ name, L.bound (childPath scope name) = true → s.contains (childPath scope name) = true

theorem Settled.extends {scope : String} (h : L.Settled s scope) {s' : Store Suspension}
    (hext : s.Extends s') : L.Settled s' scope := fun name hbound =>
  hext.contains (h name hbound)

theorem Settled.contains_eq {scope : String} (h : L.Settled s scope) (hs : L.Holds s)
    (name : String) : s.contains (childPath scope name) = L.bound (childPath scope name) := by
  rw [Bool.eq_iff_iff]
  exact ⟨hs.bound, h name⟩

def SettledAll (L : Library) (s : Store Suspension) (scopes : List String) : Prop :=
  ∀ scope ∈ scopes, L.Settled s scope

theorem SettledAll.extends {scopes : List String} (h : L.SettledAll s scopes)
    {s' : Store Suspension} (hext : s.Extends s') : L.SettledAll s' scopes :=
  fun scope hscope => (h scope hscope).extends hext

/-- The scopes of a binding come with it. -/
theorem Holds.settled (h : L.Holds s) {n : String} {b : Suspension} (hb : s.body? n = some b) :
    L.SettledAll s b.scopes := by
  intro scope hscope name hbound
  obtain ⟨hoffers, hpath⟩ := offer?_eq_some.mp (h.offered hb)
  obtain ⟨c, hc, hcpath⟩ := bound_iff.mp hbound
  have hbelow : Below scope c.path := hcpath ▸ (Below.refl scope).child name
  cases hoffers with
  | loaded hloaded =>
    cases hc with
    | loaded hc =>
      apply h.loaded
      exact Store.contains_of_body? (hcpath ▸ hc)
    | @file bytes root hfile hc =>
      have hwithin := (within_documentBindings hc).path
      have hscope' := hbelow.of_below hwithin (L.host.dot_not_mem_contentName bytes)
      exact absurd hscope' (L.apart hloaded hfile.readable scope (List.mem_cons_of_mem _ hscope))
  | @file bytes root hfile hb' =>
    have hwithin := ((within_documentBindings hb').scopes scope hscope).child name
    rw [← hcpath] at hwithin
    obtain ⟨root', hfile', hc'⟩ := hc.of_below hfile.readable hwithin
    obtain rfl := hfile.root_eq hfile'.parsed
    have hn : s.contains b.path = true := Store.contains_of_body? (hpath ▸ hb)
    rw [← hcpath]
    exact h.whole hfile b hb' c hc' hn

/-- So do the properties of an object literal. -/
theorem Holds.contains_member (h : L.Holds s) {n : String} {b : Suspension}
    (hb : s.body? n = some b) {members : List Member} (htask : b.task = .members members)
    {key : String} {value : Expr} (hmem : .property key value ∈ members) :
    s.contains (childPath b.path key) = true := by
  obtain ⟨hoffers, hpath⟩ := offer?_eq_some.mp (h.offered hb)
  cases hoffers with
  | loaded hloaded => exact h.loaded (L.complete hloaded htask hmem)
  | @file bytes root hfile hb' =>
    obtain ⟨c, hc, hcpath⟩ := complete_documentBindings _ root b hb' members key value htask hmem
    have hn : s.contains b.path = true := Store.contains_of_body? (hpath ▸ hb)
    rw [← hcpath]
    exact h.whole hfile b hb' c hc hn

end Library

end LazyConfig
