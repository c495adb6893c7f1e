-- The two equalities side by side. Strict equality takes a compound value for the one that it is,
-- structural equality for what is in it. What is the same value has the same in it, so the first
-- implies the second, but for NaN, which equals nothing.
-- Main statement: the laws of both equalities, and what equal values have in common.
import LazyConfig.Proofs.Value.Operators
import LazyConfig.Proofs.Value.Sharing
import LazyConfig.Value.Equality
import LazyConfig.Value.Printer

namespace LazyConfig.Value

open List (Forall₂)

/-! ## All that is in a value -/

/-- The value is like this, and so is all that is inside, at any depth. -/
def Everywhere (P : Value → Prop) (v : Value) : Prop := ∀ w : Value, w.Within v → P w

/-- No number in the value is NaN. -/
def NoNaN (v : Value) : Prop :=
  v.Everywhere fun w => ∀ x, w.number? = some x → Double.isNaN x = false

/-- There is no number in the value. -/
def NoNumber (v : Value) : Prop := v.Everywhere fun w => w.number? = none

/-- All compound values in the value are those that their identities stand for. There is one value
for each identity at a time. -/
def LivesIn (heap : Identity → Value) (v : Value) : Prop :=
  v.Everywhere fun w => ∀ id, w.identity? = some id → heap id = w

variable {P : Value → Prop} {a b c v : Value} {heap : Identity → Value}

theorem Everywhere.self (h : v.Everywhere P) : P v := h v .refl

theorem Everywhere.inside (h : v.Everywhere P) {inside : Value} (hmem : inside ∈ v.contents) :
    inside.Everywhere P :=
  fun w hw => h w (within_of_mem_contents hmem hw)

theorem everywhere_iff : v.Everywhere P ↔ P v ∧ ∀ inside ∈ v.contents, inside.Everywhere P := by
  constructor
  · exact fun h => ⟨h.self, fun _ hmem => h.inside hmem⟩
  · rintro ⟨hself, hinside⟩ w hw
    rcases Relation.ReflTransGen.cases_head hw with rfl | ⟨inside, hmem, hw⟩
    · exact hself
    · exact hinside inside hmem w hw

theorem everywhere_string {s : String} : (string s).Everywhere P ↔ P (string s) := by
  rw [everywhere_iff]
  simp [contents]

theorem everywhere_array {id : Identity} {items : List Value} :
    (array id items).Everywhere P ↔ P (array id items) ∧ ∀ v ∈ items, v.Everywhere P :=
  everywhere_iff

/-! ## Strict equality -/

/-- How values are strictly equal: as the same compound value, as numbers, or as plain values that
are the same. -/
inductive Same : Value → Value → Prop
  | compound {a b : Value} (id : Identity) (ha : a.identity? = some id)
      (hb : b.identity? = some id) : Same a b
  | number {x y : Float} (h : Double.equals x y = true) : Same (number x) (number y)
  | plain {v : Value} (hplain : v.identity? = none) (hnumber : v.number? = none) : Same v v

theorem strictEquals_iff : a.strictEquals b = true ↔ Same a b := by
  constructor
  · intro h
    cases hid : a.identity? with
    | some id =>
      rw [strictEquals_of_compound hid, decide_eq_true_iff] at h
      exact .compound id hid h
    | none =>
      cases a with
      | array | object | function => cases hid
      | number x =>
        cases b with
        | number y => exact .number h
        | _ => cases h
      | _ =>
        cases b
        all_goals first
          | cases h; exact .plain rfl rfl
          | cases of_decide_eq_true h; exact .plain rfl rfl
          | cases h
  · rintro (⟨id, ha, hb⟩ | h | ⟨hplain, hnumber⟩)
    · rw [strictEquals_of_compound ha, hb, decide_eq_true_iff]
    · exact h
    · cases a with
      | array | object | function => cases hplain
      | number => cases hnumber
      | _ => simp [strictEquals]

theorem Same.symm (h : Same a b) : Same b a := by
  rcases h with ⟨id, ha, hb⟩ | h | ⟨hplain, hnumber⟩
  · exact .compound id hb ha
  · exact .number (by rwa [Double.equals_comm])
  · exact .plain hplain hnumber

theorem Same.trans (h : Same a b) (h' : Same b c) : Same a c := by
  rcases h with ⟨id, ha, hb⟩ | h | ⟨hplain, hnumber⟩
  · rcases h' with ⟨id', hb', hc⟩ | h' | ⟨hplain, -⟩
    · exact .compound id ha (hc.trans (hb'.symm.trans hb))
    · cases hb
    · rw [hplain] at hb
      cases hb
  · rcases h' with ⟨id', hb', hc⟩ | h' | ⟨-, hnumber⟩
    · cases hb'
    · exact .number (Double.equals_trans h h')
    · cases hnumber
  · exact h'

theorem Same.refl (h : ∀ x, v.number? = some x → Double.isNaN x = false) : Same v v := by
  cases v with
  | array id | object id | function id => exact .compound id rfl rfl
  | number x => exact .number (Double.equals_self (h x rfl))
  | _ => exact .plain rfl rfl

/-! ## Structural equality -/

theorem equalItems_iff {xs ys : List Value} :
    equalItems xs ys = true ↔ Forall₂ (fun x y => x.equals y = true) xs ys := by
  induction xs generalizing ys with
  | nil => cases ys <;> simp [equalItems]
  | cons x xs ih => cases ys <;> simp [equalItems, ih]

theorem equalEntries_iff {xs ys : List (String × Value)} :
    equalEntries xs ys = true ↔ Forall₂ (fun d e => d.1 = e.1 ∧ d.2.equals e.2 = true) xs ys := by
  induction xs generalizing ys with
  | nil => cases ys <;> simp [equalEntries]
  | cons x xs ih => cases ys <;> simp [equalEntries, ih, and_assoc]

/-- How values are equal by content: as arrays of equal elements, as objects of equal entries, or
strictly where these two do not apply. -/
inductive Matches : Value → Value → Prop
  | array {id id' : Identity} {xs ys : List Value}
      (h : Forall₂ (fun x y => x.equals y = true) xs ys) :
      Matches (array id xs) (array id' ys)
  | object {id id' : Identity} {xs ys : List (String × Value)}
      (h : Forall₂ (fun d e => d.1 = e.1 ∧ d.2.equals e.2 = true) xs ys) :
      Matches (object id xs) (object id' ys)
  | other {a b : Value} (hkind : a.typeName = b.typeName → a.container? = none)
      (h : Same a b) : Matches a b

theorem equals_of_other (hkind : a.typeName = b.typeName → a.container? = none) :
    a.equals b = a.strictEquals b := by
  rw [equals]
  · rintro id xs id' ys rfl rfl
    cases hkind rfl
  · rintro id xs id' ys rfl rfl
    cases hkind rfl

theorem equals_iff : a.equals b = true ↔ Matches a b := by
  constructor
  · intro h
    by_cases hkind : a.typeName = b.typeName → a.container? = none
    · rw [equals_of_other hkind, strictEquals_iff] at h
      exact .other hkind h
    · obtain ⟨hsame, hcontainer⟩ := Classical.not_imp.mp hkind
      cases a with
      | array =>
        cases b with
        | array => exact .array (equalItems_iff.mp h)
        | _ => simp [typeName] at hsame
      | object =>
        cases b with
        | object => exact .object (equalEntries_iff.mp h)
        | _ => simp [typeName] at hsame
      | _ => exact absurd rfl hcontainer
  · rintro (h | h | ⟨hkind, h⟩)
    · exact equalItems_iff.mpr h
    · exact equalEntries_iff.mpr h
    · rwa [equals_of_other hkind, strictEquals_iff]

/-! ## Laws -/

theorem forall₂_imp_of_mem {α β : Type} {R S : α → β → Prop} {xs : List α} {ys : List β}
    (himp : ∀ x ∈ xs, ∀ y ∈ ys, R x y → S x y) (h : Forall₂ R xs ys) : Forall₂ S xs ys := by
  induction h with
  | nil => exact .nil
  | cons hxy _ ih =>
    refine .cons (himp _ (by simp) _ (by simp) hxy) (ih ?_)
    exact fun x hx y hy => himp x (by simp [hx]) y (by simp [hy])

theorem forall₂_trans_of_mem {α : Type} {R : α → α → Prop} {xs ys zs : List α}
    (htrans : ∀ x ∈ xs, ∀ y ∈ ys, ∀ z ∈ zs, R x y → R y z → R x z) (h : Forall₂ R xs ys)
    (h' : Forall₂ R ys zs) : Forall₂ R xs zs := by
  induction h generalizing zs with
  | nil => exact h'
  | cons hxy _ ih =>
    cases h' with
    | cons hyz h' =>
      refine .cons (htrans _ (by simp) _ (by simp) _ (by simp) hxy hyz) (ih ?_ h')
      exact fun x hx y hy z hz => htrans x (by simp [hx]) y (by simp [hy]) z (by simp [hz])

theorem mem_contents_object {id : Identity} {entries : List (String × Value)} {e : String × Value}
    (h : e ∈ entries) : e.2 ∈ (object id entries).contents := List.mem_map_of_mem h

theorem container?_eq_none_of_typeName (h : a.typeName = b.typeName) (ha : a.container? = none) :
    b.container? = none := by
  cases b with
  | array | object =>
    cases a with
    | array | object => cases ha
    | _ => simp [typeName] at h
  | _ => rfl

theorem equals_symm (h : a.equals b = true) : b.equals a = true := by
  induction a using induction_on_contents generalizing b with
  | h a ih =>
    rw [equals_iff] at h ⊢
    cases h with
    | array h => exact .array (forall₂_imp_of_mem (fun x hx y _ => ih x hx) h).flip
    | object h =>
      refine .object (forall₂_imp_of_mem (fun d hd e _ hde => ?_) h).flip
      exact ⟨hde.1.symm, ih d.2 (mem_contents_object hd) hde.2⟩
    | other hkind h =>
      exact .other
        (fun hname => container?_eq_none_of_typeName hname.symm (hkind hname.symm)) h.symm

/-- Values that are the same and live at one time are one value, unless they are numbers. -/
theorem Same.eq_or_number (h : Same a b) (ha : a.LivesIn heap) (hb : b.LivesIn heap) :
    a = b ∨ ∃ x y, a = .number x ∧ b = .number y ∧ Double.equals x y = true := by
  rcases h with ⟨id, hida, hidb⟩ | h | ⟨hplain, hnumber⟩
  · exact .inl ((ha.self id hida).symm.trans (hb.self id hidb))
  · exact .inr ⟨_, _, rfl, rfl, h⟩
  · exact .inl rfl

theorem equals_trans (ha : a.LivesIn heap) (hb : b.LivesIn heap) (hc : c.LivesIn heap)
    (hab : a.equals b = true) (hbc : b.equals c = true) : a.equals c = true := by
  induction a using induction_on_contents generalizing b c with
  | h a ih =>
    rw [equals_iff] at hab
    cases hab with
    | array hxy =>
      rw [equals_iff] at hbc
      cases hbc with
      | array hyz =>
        refine equals_iff.mpr (.array (forall₂_trans_of_mem ?_ hxy hyz))
        exact fun x hx y hy z hz => ih x hx (ha.inside hx) (hb.inside hy) (hc.inside hz)
      | other hkind h =>
        rcases h.eq_or_number hb hc with rfl | ⟨_, _, heq, _⟩
        · cases hkind rfl
        · cases heq
    | object hxy =>
      rw [equals_iff] at hbc
      cases hbc with
      | object hyz =>
        refine equals_iff.mpr (.object (forall₂_trans_of_mem ?_ hxy hyz))
        intro d hd e he f hf hde hef
        exact ⟨hde.1.trans hef.1,
          ih d.2 (mem_contents_object hd) (ha.inside (mem_contents_object hd))
          (hb.inside (mem_contents_object he)) (hc.inside (mem_contents_object hf)) hde.2 hef.2⟩
      | other hkind h =>
        rcases h.eq_or_number hb hc with rfl | ⟨_, _, heq, _⟩
        · cases hkind rfl
        · cases heq
    | other hkind h =>
      rcases h.eq_or_number ha hb with rfl | ⟨x, y, rfl, rfl, _⟩
      · exact hbc
      · rw [equals_iff] at hbc ⊢
        cases hbc with
        | other _ h' => exact .other (fun _ => rfl) (h.trans h')

/-- Without NaN all is equal to itself. -/
theorem equals_self (h : v.NoNaN) : v.equals v = true := by
  induction v using induction_on_contents with
  | h v ih =>
    rw [equals_iff]
    cases v with
    | array id items => exact .array (List.forall₂_same.mpr fun x hx => ih x hx (h.inside hx))
    | object id entries =>
      refine .object (List.forall₂_same.mpr fun e he => ⟨rfl, ?_⟩)
      exact ih e.2 (mem_contents_object he) (h.inside (mem_contents_object he))
    | _ => exact .other (fun _ => rfl) (.refl h.self)

/-- What is the same is equal by content, if there is no NaN in it. -/
theorem equals_of_strictEquals (ha : a.LivesIn heap) (hb : b.LivesIn heap) (hnan : a.NoNaN)
    (h : a.strictEquals b = true) : a.equals b = true := by
  rw [strictEquals_iff] at h
  rcases h.eq_or_number ha hb with rfl | ⟨x, y, rfl, rfl, _⟩
  · exact equals_self hnan
  · exact equals_iff.mpr (.other (fun _ => rfl) h)

/-! ## Replacing what is equal -/

theorem forall₂_set {α : Type} {R : α → α → Prop} {xs : List α} {x y : α} (hxy : R x y)
    (h : ∀ z ∈ xs, R z z) (i : Nat) : Forall₂ R (xs.set i x) (xs.set i y) := by
  induction xs generalizing i with
  | nil => exact .nil
  | cons z xs ih =>
    obtain ⟨hz, hxs⟩ := List.forall_mem_cons.mp h
    cases i with
    | zero => exact .cons hxy (List.forall₂_same.mpr hxs)
    | succ i => exact .cons hz (ih hxs i)

theorem forall₂_insert {key : String} {entries : Object Value} (h : a.equals b = true)
    (hself : ∀ e ∈ entries, e.2.equals e.2 = true) :
    Forall₂ (fun d e : String × Value => d.1 = e.1 ∧ d.2.equals e.2 = true)
      (entries.insert key a) (entries.insert key b) := by
  induction entries with
  | nil => exact .cons ⟨rfl, h⟩ .nil
  | cons e rest ih =>
    obtain ⟨he, hrest⟩ := List.forall_mem_cons.mp hself
    unfold Object.insert
    split
    · exact .cons ⟨rfl, h⟩ (List.forall₂_same.mpr fun d hd => ⟨rfl, hrest d hd⟩)
    · exact .cons ⟨rfl, he⟩ (ih hrest)

/-! ## What equal values have in common -/

theorem isZero_eq_of_equals {x y : Float} (h : Double.equals x y = true) :
    Double.isNaN x = false ∧ Double.isNaN y = false ∧ Double.isZero x = Double.isZero y := by
  simp only [Double.equals, Bool.and_eq_true, Bool.or_eq_true, Bool.not_eq_true',
    decide_eq_true_eq] at h
  obtain ⟨⟨hx, hy⟩, hsame | ⟨hzero, hzero'⟩⟩ := h
  · exact ⟨hx, hy, Double.isZero_congr hsame⟩
  · exact ⟨hx, hy, hzero.trans hzero'.symm⟩

theorem typeName_eq_of_equals (ha : a.LivesIn heap) (hb : b.LivesIn heap) (h : a.equals b = true) :
    a.typeName = b.typeName := by
  rw [equals_iff] at h
  cases h with
  | array | object => rfl
  | other _ h =>
    rcases h.eq_or_number ha hb with rfl | ⟨x, y, rfl, rfl, _⟩
    · rfl
    · rfl

theorem isTruthy_eq_of_equals (ha : a.LivesIn heap) (hb : b.LivesIn heap) (h : a.equals b = true) :
    a.isTruthy = b.isTruthy := by
  rw [equals_iff] at h
  cases h with
  | array | object => rfl
  | other _ h =>
    rcases h.eq_or_number ha hb with rfl | ⟨x, y, rfl, rfl, hxy⟩
    · rfl
    · obtain ⟨hx, hy, hzero⟩ := isZero_eq_of_equals hxy
      simp only [isTruthy, hx, hy, hzero]

theorem itemTexts_congr {xs ys : List Value} (h : Forall₂ (fun x y => x.text = y.text) xs ys) :
    itemTexts xs = itemTexts ys := by
  induction h with
  | nil => rfl
  | cons hxy _ ih => rw [itemTexts, itemTexts, hxy, ih]

theorem entryTexts_congr {xs ys : List (String × Value)}
    (h : Forall₂ (fun d e => d.1 = e.1 ∧ d.2.text = e.2.text) xs ys) :
    entryTexts xs = entryTexts ys := by
  induction h with
  | nil => rfl
  | cons hde _ ih => rw [entryTexts, entryTexts, hde.1, hde.2, ih]

/-- Only numbers can be equal and be printed in two ways. -/
theorem text_eq_of_equals (ha : a.LivesIn heap) (hb : b.LivesIn heap) (hnumber : a.NoNumber)
    (h : a.equals b = true) : a.text = b.text := by
  induction a using induction_on_contents generalizing b with
  | h a ih =>
    rw [equals_iff] at h
    cases h with
    | @array id id' xs ys h =>
      have htexts : itemTexts xs = itemTexts ys := itemTexts_congr (forall₂_imp_of_mem
        (fun x hx y hy => ih x hx (ha.inside hx) (hb.inside hy) (hnumber.inside hx)) h)
      rw [text, text, htexts]
    | @object id id' xs ys h =>
      have htexts : entryTexts xs = entryTexts ys :=
        entryTexts_congr (forall₂_imp_of_mem (fun d hd e he hde => ⟨hde.1,
          ih d.2 (mem_contents_object hd) (ha.inside (mem_contents_object hd))
            (hb.inside (mem_contents_object he))
            (hnumber.inside (mem_contents_object hd)) hde.2⟩) h)
      cases h with
      | nil => rfl
      | cons => rw [text, text, htexts]
    | other _ h =>
      rcases h.eq_or_number ha hb with rfl | ⟨x, y, rfl, _⟩
      · rfl
      · cases hnumber.self

/-- Both equalities are symmetric and transitive, with NaN or without, and equivalences on the
values without NaN, where the strict one implies the other. To put an equal value into an array or
under a key gives an equal array or object. Equal values are of one type and both truthy or both
not, and what has no numbers in it is printed like all that equals it.

The values considered together live in one heap. Strict equality looks at identities alone, and it
would take two values that have one identity for the same. -/
theorem equalities_are_consistent (heap : Identity → Value) :
    ((∀ a b : Value, a.strictEquals b = true → b.strictEquals a = true) ∧
      (∀ a b c : Value, a.strictEquals b = true → b.strictEquals c = true →
        a.strictEquals c = true) ∧
      (∀ a b : Value, a.equals b = true → b.equals a = true) ∧
      (∀ a b c : Value, a.LivesIn heap → b.LivesIn heap → c.LivesIn heap →
        a.equals b = true → b.equals c = true → a.equals c = true)) ∧
    (Equivalence (fun a b : {v : Value // v.NoNaN} => a.1.strictEquals b.1 = true) ∧
      Equivalence (fun a b : {v : Value // v.LivesIn heap ∧ v.NoNaN} => a.1.equals b.1 = true) ∧
      (∀ a b : Value, a.LivesIn heap → b.LivesIn heap → a.NoNaN →
        a.strictEquals b = true → a.equals b = true)) ∧
    ((∀ (id id' : Identity) (items : List Value) (i : Nat) (a b : Value), (∀ v ∈ items, v.NoNaN) →
        a.equals b = true → (array id (items.set i a)).equals (array id' (items.set i b)) = true) ∧
      (∀ (id id' : Identity) (entries : Object Value) (key : String) (a b : Value),
        (∀ e ∈ entries, e.2.NoNaN) → a.equals b = true →
        (object id (entries.insert key a)).equals (object id' (entries.insert key b)) = true)) ∧
    (∀ a b : Value, a.LivesIn heap → b.LivesIn heap → a.equals b = true →
      a.typeName = b.typeName ∧ a.isTruthy = b.isTruthy ∧ (a.NoNumber → a.text = b.text)) := by
  have strict_symm (a b : Value) (h : a.strictEquals b = true) : b.strictEquals a = true :=
    strictEquals_iff.mpr (strictEquals_iff.mp h).symm
  have strict_trans (a b c : Value) (h : a.strictEquals b = true) (h' : b.strictEquals c = true) :
      a.strictEquals c = true :=
    strictEquals_iff.mpr ((strictEquals_iff.mp h).trans (strictEquals_iff.mp h'))
  refine ⟨⟨strict_symm, strict_trans, fun a b => equals_symm, fun a b c => equals_trans⟩,
    ⟨⟨fun v => ?_, strict_symm _ _, strict_trans _ _ _⟩, ⟨fun v => ?_, equals_symm, ?_⟩, ?_⟩,
    ⟨?_, ?_⟩, ?_⟩
  · exact strictEquals_iff.mpr (.refl v.2.self)
  · exact equals_self v.2.2
  · rintro ⟨a, ha, _⟩ ⟨b, hb, _⟩ ⟨c, hc, _⟩
    exact equals_trans ha hb hc
  · exact fun a b => equals_of_strictEquals
  · intro id id' items i a b hnan h
    have hitems := forall₂_set (R := fun x y : Value => x.equals y = true) h
      (fun v hv => equals_self (hnan v hv)) i
    exact equals_iff.mpr (.array hitems)
  · intro id id' entries key a b hnan h
    exact equals_iff.mpr (.object (forall₂_insert h fun e he => equals_self (hnan e he)))
  · intro a b ha hb h
    exact ⟨typeName_eq_of_equals ha hb h, isTruthy_eq_of_equals ha hb h,
      fun hnumber => text_eq_of_equals ha hb hnumber h⟩

/-- Two arrays of one element each in a heap of two. -/
theorem equalities_are_consistent_for_two_arrays :
    let a := array ⟨"a", 0⟩ [string "x"]
    let b := array ⟨"a", 1⟩ [string "x"]
    let heap := fun id : Identity => if id = ⟨"a", 0⟩ then a else b
    a.LivesIn heap ∧ b.LivesIn heap ∧ a.NoNaN ∧ a.NoNumber ∧ a.strictEquals b = false ∧
      a.equals b = true ∧
      b.equals a = true ∧ a.text = b.text := by
  intro a b heap
  have ha : a.LivesIn heap := by
    simp [LivesIn, everywhere_array, everywhere_string, identity?, a, heap]
  have hb : b.LivesIn heap := by
    simp [LivesIn, everywhere_array, everywhere_string, identity?, b, heap]
  have hnumber : a.NoNumber := by
    simp [NoNumber, everywhere_array, everywhere_string, number?, a]
  have hnan : a.NoNaN := by simp [NoNaN, everywhere_array, everywhere_string, number?, a]
  have hequal : a.equals b = true := by simp [equals, equalItems, strictEquals, a, b]
  have hlaws := equalities_are_consistent heap
  exact ⟨ha, hb, hnan, hnumber, by simp [strictEquals, identity?, a, b], hequal,
    hlaws.1.2.2.1 a b hequal,
    (hlaws.2.2.2 a b ha hb hequal).2.2 hnumber⟩

/-- Without a heap there is a chain of equal values from an array to an object. -/
example (i j : Identity) (h : i ≠ j) :
    (array i []).equals (array j []) = true ∧ (array j []).equals (object j []) = true ∧
      (array i []).equals (object j []) = false := by
  simp [equals, equalItems, strictEquals, identity?, h]

end LazyConfig.Value
