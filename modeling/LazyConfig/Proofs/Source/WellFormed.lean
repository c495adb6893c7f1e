-- The trees that sources are read as. Numbers, names and blobs hold what can be written, callees
-- take arguments, and a spread is a call of a name.
-- Main statement: what is read from a source is such a tree.
import LazyConfig.Proofs.Source.Layout
import LazyConfig.Proofs.Source.Outcomes
import LazyConfig.Proofs.Source.Trees

namespace LazyConfig

open Lexer
open List (Forall₂)

/-! ## Well-formed trees -/

/-- A name that is no word of the language. -/
def IsFreeName (name : String) : Prop :=
  isName name = true ∧ name ≠ "true" ∧ name ≠ "false" ∧ name ≠ "null"

mutual

/-- The expression can be written. -/
def Expr.WellFormed : Expr → Prop
  | .number _ text => IsNumber text.toList
  | .string _ _ => True
  | .boolean _ _ => True
  | .null _ => True
  | .blob _ form text => ∀ c ∈ text.toList, form.allows c = true
  | .identifier _ name => IsFreeName name
  | .relative _ _ name => isName name = true
  | .array _ elements => Expr.AllWellFormed elements
  | .object _ members => Member.AllWellFormed members
  | .call _ callee args => callee.isCallable = true ∧ callee.WellFormed ∧ Expr.AllWellFormed args
  | .lambda _ params body => (∀ name ∈ params, isName name = true) ∧ body.WellFormed
  | .binary _ _ left right => left.WellFormed ∧ right.WellFormed
  | .unary _ _ operand => operand.WellFormed

/-- All the expressions can be written. -/
def Expr.AllWellFormed : List Expr → Prop
  | [] => True
  | e :: es => e.WellFormed ∧ Expr.AllWellFormed es

/-- All the members can be written. -/
def Member.AllWellFormed : List Member → Prop
  | [] => True
  | .property _ value :: ms => value.WellFormed ∧ Member.AllWellFormed ms
  | .spread value :: ms =>
    value.isNamedCall = true ∧ value.WellFormed ∧ Member.AllWellFormed ms

end

/-! ## Parts -/

theorem Expr.AllWellFormed.of_mem {es : List Expr} (h : Expr.AllWellFormed es) {e : Expr}
    (he : e ∈ es) :
    e.WellFormed := by
  induction es with
  | nil => cases he
  | cons first more ih =>
    rcases List.mem_cons.mp he with rfl | he
    · exact h.1
    · exact ih h.2 he

theorem Member.AllWellFormed.of_mem {ms : List Member} (h : Member.AllWellFormed ms) {m : Member}
    (hm : m ∈ ms) : m.expr.WellFormed := by
  induction ms with
  | nil => cases hm
  | cons first more ih =>
    cases first with
    | property key value =>
      rcases List.mem_cons.mp hm with rfl | hm
      · exact h.1
      · exact ih h.2 hm
    | spread value =>
      rcases List.mem_cons.mp hm with rfl | hm
      · exact h.2.1
      · exact ih h.2.2 hm

theorem Expr.WellFormed.child {e inside : Expr} (h : e.WellFormed) (hmem : inside ∈ e.children) :
    inside.WellFormed := by
  cases e with
  | array span elements => exact Expr.AllWellFormed.of_mem h hmem
  | object span members =>
    obtain ⟨m, hm, rfl⟩ := List.mem_map.mp hmem
    exact Member.AllWellFormed.of_mem h hm
  | call span callee args =>
    obtain ⟨-, hcallee, hargs⟩ := h
    rcases List.mem_cons.mp hmem with rfl | hmem
    · exact hcallee
    · exact hargs.of_mem hmem
  | lambda span params body =>
    obtain rfl := List.mem_singleton.mp hmem
    exact h.2
  | binary span op left right =>
    rcases List.mem_cons.mp hmem with rfl | hmem
    · exact h.1
    · obtain rfl := List.mem_singleton.mp hmem
      exact h.2
  | unary span op operand =>
    obtain rfl := List.mem_singleton.mp hmem
    exact h
  | _ => cases hmem

/-- The parts of what can be written can be written. -/
theorem Expr.WellFormed.part {e root : Expr} (h : root.WellFormed) (hpart : e.PartOf root) :
    e.WellFormed := by
  induction hpart with
  | refl => exact h
  | tail _ hmem ih => exact ih.child hmem

/-- No name holds a dot. -/
theorem dot_not_mem_of_isName {name : String} (h : isName name = true) : '.' ∉ name.toList := by
  have hrest : isNameRest '.' = false := by decide
  have hstart : isNameStart '.' = false := by decide
  unfold isName at h
  intro hdot
  cases hchars : name.toList with
  | nil => simp [hchars] at hdot
  | cons c cs =>
    rw [hchars] at h hdot
    obtain ⟨hc, hcs⟩ := Bool.and_eq_true_iff.mp h
    rcases List.mem_cons.mp hdot with rfl | hdot
    · rw [hstart] at hc
      cases hc
    · have := List.all_eq_true.mp hcs '.' hdot
      rw [hrest] at this
      cases this

/-! ## Words -/

theorem spells_of_isWord {t : Token} {kind : TokenKind} (h : t.kind = .eof ∨ IsWord t)
    (hkind : t.kind = kind) (hword : kind ≠ .eof ∧ kind ≠ .template) :
    Spells kind t.text.toList := by
  subst hkind
  exact (h.resolve_left hword.1).resolve_left hword.2

theorem isName_of_spells {s : String} (h : Spells .identifier s.toList) : isName s = true := by
  unfold isName
  cases hs : s.toList with
  | nil => rw [hs] at h; cases h
  | cons c cs =>
    rw [hs] at h
    cases h with
    | identifier hc hcs => simpa [hc] using hcs

theorem isNumber_of_spells {w : List Char} (h : Spells .number w) : IsNumber w := by
  cases h with
  | number h => exact h

/-- What is between the quotes of a blob. -/
theorem unwrap_blob {form : BlobForm} {text : String} {body : List Char}
    (h : text.toList = form.name.toList ++ '\'' :: (body ++ ['\''])) :
    Grammar.unwrap 4 text = String.ofList body := by
  have hbody : text.toList.drop 4 = body ++ ['\''] := by
    rw [h]
    cases form <;> rfl
  rw [Grammar.unwrap, hbody, List.dropLast_concat]

theorem allows_of_spells {form : BlobForm} {text : String} (h : Spells (.blob form) text.toList) :
    ∀ c ∈ (Grammar.unwrap 4 text).toList, form.allows c = true := by
  generalize htext : text.toList = w at h
  cases h with
  | blob form h =>
    rw [unwrap_blob htext, String.toList_ofList]
    exact h

/-! ## What is read can be written -/

theorem Expr.allWellFormed_of_forall₂ {es es' : List Expr}
    (h : Forall₂ (fun e e' => e.isCallable = e'.isCallable ∧ e.WellFormed) es es') :
    Expr.AllWellFormed es := by
  induction h with
  | nil => trivial
  | cons he _ ih => exact ⟨he.2, ih⟩

theorem Member.allWellFormed_of_forall₂ {ms ms' : List Member}
    (h : Forall₂ (Member.Related fun e e' => e.isCallable = e'.isCallable ∧ e.WellFormed) ms ms')
    (hspread : ∀ e, Member.spread e ∈ ms → e.isNamedCall = true) : Member.AllWellFormed ms := by
  induction h with
  | nil => trivial
  | cons hm _ ih =>
    have hmore := ih fun e he => hspread e (by simp [he])
    cases hm with
    | property key he => exact ⟨he.2, hmore⟩
    | spread he => exact ⟨hspread _ (by simp), he.2, hmore⟩

theorem isFreeName_of_word {t : Token} (h : isName t.text = true) :
    (Grammar.word t).WellFormed := by
  unfold Grammar.word
  split
  · trivial
  split
  · trivial
  split
  · trivial
  · next h₁ h₂ h₃ => exact ⟨h, h₁, h₂, h₃⟩

theorem respects_wellFormed :
    Respects (fun t t' => t = t' ∧ (t.kind = .eof ∨ IsWord t))
      fun e e' => e.isCallable = e'.isCallable ∧ e.WellFormed where
  kind_eq h := by rw [h.1]
  text_eq h := by rw [h.1]
  callable_eq h := h.1
  number s s' h hkind := ⟨rfl, isNumber_of_spells (spells_of_isWord h.2 hkind (by simp))⟩
  string _ _ _ := ⟨rfl, trivial⟩
  blob s s' h hkind := ⟨rfl, allows_of_spells (spells_of_isWord h.2 hkind (by simp))⟩
  word h hkind := by
    obtain ⟨rfl, h⟩ := h
    exact ⟨rfl, isFreeName_of_word (isName_of_spells (spells_of_isWord h hkind (by simp)))⟩
  relative s s' _ _ h hkind := ⟨rfl, isName_of_spells (spells_of_isWord h.2 hkind (by simp))⟩
  array s s' h := ⟨rfl, Expr.allWellFormed_of_forall₂ h⟩
  object s s' h hspread := ⟨rfl, Member.allWellFormed_of_forall₂ h hspread⟩
  call s s' h hcallable hs := ⟨rfl, hcallable, h.2, Expr.allWellFormed_of_forall₂ hs⟩
  lambda s s' hnames h := by
    refine ⟨rfl, fun name hname => ?_, h.2⟩
    obtain ⟨t, t', ht, hkind, rfl⟩ := hnames name hname
    exact isName_of_spells (spells_of_isWord ht.2 hkind (by simp))
  binary s s' op hl hr := ⟨rfl, hl.2, hr.2⟩
  unary s s' op h := ⟨rfl, h.2⟩

/-- The tree of a source can be written. -/
theorem wellFormed_of_parse {limit : Nat} {bytes : Bytes} {e : Expr}
    (h : parse limit bytes = .ok e) : e.WellFormed := by
  obtain ⟨ts, hts, h⟩ := exists_tokens_of_parse h
  have hwords : Forall₂ (fun t t' => t = t' ∧ (t.kind = .eof ∨ IsWord t)) ts ts :=
    List.forall₂_same.mpr fun t ht => ⟨rfl, tokenize_words hts t ht⟩
  rcases respects_wellFormed.parseTokens limit hwords with ⟨_, _, hfail, -, -⟩ | ⟨_, _, hok, -, he⟩
  · rw [h] at hfail
    cases hfail
  · rw [h] at hok
    cases hok
    exact he.2

end LazyConfig
