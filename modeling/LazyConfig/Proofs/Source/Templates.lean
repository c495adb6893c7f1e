-- Templates: texts in back quotes. A region inside a template opens with a dollar sign and a brace
-- and ends with a closing brace. Regions nest, and in one a back quote closes nothing.
-- Main statements: a template is read up to its closing quote whatever follows, and what is read up
-- to a closing quote is the body of a template.
import LazyConfig.Proofs.Source.Glyphs

namespace LazyConfig.Lexer

open Utf8 (width)

variable {offset size start depth : Nat} {cs body : List Char} {left : List Glyph}

/-- The text runs up to the closing quote of a template, from inside `depth` open regions. -/
inductive TemplateBody : (depth : Nat) → List Char → Prop
  | nil : TemplateBody 0 []
  | hidden {depth : Nat} {cs : List Char} (c : Char) (h : TemplateBody depth cs) :
      TemplateBody depth ('\\' :: c :: cs)
  | enter {depth : Nat} {cs : List Char} (h : TemplateBody (depth + 1) cs) :
      TemplateBody depth ('$' :: '{' :: cs)
  | leave {depth : Nat} {cs : List Char} (h : TemplateBody depth cs) :
      TemplateBody (depth + 1) ('\x7d' :: cs)
  | char {depth : Nat} {c : Char} {cs : List Char} (hhidden : c ≠ '\\')
      (hquote : c = '`' → 0 < depth)
      (henter : c = '$' → cs.head? ≠ some '{') (hleave : c = '\x7d' → depth = 0)
      (h : TemplateBody depth cs) : TemplateBody depth (c :: cs)

/-- A plain character of a template is passed over. -/
theorem closeTemplate_char {c : Char} (hhidden : c ≠ '\\') (hquote : c = '`' → 0 < depth)
    (henter : c = '$' → cs.head? ≠ some '{') (hleave : c = '\x7d' → depth = 0) :
    closeTemplate size start depth false (places offset (c :: cs)) =
      closeTemplate size start depth false (places (offset + c.utf8Size) cs) := by
  have hopen : ¬(c = '`' ∧ depth = 0) := fun h => Nat.ne_of_gt (hquote h.1) h.2
  have hclose : ¬(c = '\x7d' ∧ 0 < depth) := fun h => Nat.ne_of_gt h.2 (hleave h.1)
  rw [places_cons, closeTemplate]
  simp only [hhidden, if_false, hopen, hclose, peek_places]
  by_cases hc : c = '$'
  · simp [hc, henter hc]
  · simp [hc]

theorem closeTemplate_word (h : TemplateBody depth body) (rest : List Char)
    (size start offset : Nat) :
    closeTemplate size start depth false (places offset (body ++ '`' :: rest)) =
      .ok (places (offset + width (body ++ ['`'])) rest) := by
  induction h generalizing offset with
  | nil => simp [places_cons, closeTemplate]
  | hidden c h ih => simp [places_cons, closeTemplate, ih, Nat.add_assoc]
  | enter h ih => simp [places_cons, closeTemplate, peek, ih, Nat.add_assoc]
  | leave h ih => simp [places_cons, closeTemplate, ih, Nat.add_assoc]
  | @char depth c cs hhidden hquote henter hleave h ih =>
    have hnext : c = '$' → (cs ++ '`' :: rest).head? ≠ some '{' := by
      intro hc
      cases cs with
      | nil => simp
      | cons d cs => simpa using henter hc
    rw [List.cons_append, closeTemplate_char hhidden hquote hnext hleave, ih]
    simp [Nat.add_assoc]

/-- What is read up to the closing quote is the body of a template. A hidden character comes before
it if one is passed over unseen. -/
theorem took_closeTemplate {hidden : Bool}
    (h : closeTemplate size start depth hidden (places offset cs) = .ok left) :
    Took (fun w => ∃ unseen body, unseen.length = hidden.toNat ∧ TemplateBody depth body ∧
      w = unseen ++ (body ++ ['`'])) offset cs left := by
  induction cs generalizing offset depth hidden with
  | nil => cases hidden <;> cases h
  | cons c cs ih =>
    cases hidden with
    | true =>
      refine (ih h).cons ?_
      rintro w ⟨unseen, body, hunseen, hbody, rfl⟩
      rw [List.length_eq_zero_iff.mp hunseen]
      exact ⟨[c], body, rfl, hbody, rfl⟩
    | false =>
      -- Whatever the character is, reading goes on after it, and the body goes on with it.
      have hnext : ∀ {depth' : Nat} {hidden : Bool},
          closeTemplate size start depth' hidden (places (offset + c.utf8Size) cs) = .ok left →
          (∀ unseen body rest, unseen.length = hidden.toNat → TemplateBody depth' body →
            cs = unseen ++ (body ++ '`' :: rest) → TemplateBody depth (c :: (unseen ++ body))) →
          Took (fun w => ∃ unseen body, unseen.length = false.toNat ∧ TemplateBody depth body ∧
            w = unseen ++ (body ++ ['`'])) offset (c :: cs) left := by
        intro depth' hidden h hbodies
        obtain ⟨w, rest, ⟨unseen, body, hunseen, hbody, rfl⟩, rfl, rfl⟩ := ih h
        refine ⟨c :: (unseen ++ (body ++ ['`'])), rest, ⟨[], c :: (unseen ++ body), rfl,
          hbodies unseen body rest hunseen hbody (by simp), by simp⟩, rfl, ?_⟩
        rw [Utf8.width_cons, Nat.add_assoc]
      simp only [places_cons, closeTemplate, peek_places] at h
      split at h
      · next hc =>
        refine hnext h fun unseen body rest hunseen hbody _ => ?_
        obtain ⟨d, rfl⟩ := List.length_eq_one_iff.mp hunseen
        rw [hc]
        exact .hidden d hbody
      next hhidden =>
      split at h
      · next hc =>
        cases h
        obtain ⟨rfl, rfl⟩ := hc
        exact ⟨['`'], cs, ⟨[], [], rfl, .nil, rfl⟩, rfl, rfl⟩
      next hquote =>
      split at h
      · next hc =>
        subst hc
        split at h
        · next henter =>
          refine hnext h fun unseen body rest hunseen hbody hcs => ?_
          obtain ⟨d, rfl⟩ := List.length_eq_one_iff.mp hunseen
          rw [hcs] at henter
          cases henter
          exact .enter hbody
        · next henter =>
          refine hnext h fun unseen body rest hunseen hbody hcs => ?_
          obtain rfl := List.length_eq_zero_iff.mp hunseen
          refine .char hhidden (by simp) (fun _ hhead => henter ?_) (by simp) hbody
          rw [hcs, List.nil_append, List.head?_append]
          rw [List.nil_append] at hhead
          rw [hhead, Option.some_or]
      next hdollar =>
      split at h
      · next hc =>
        obtain ⟨rfl, hdepth⟩ := hc
        refine hnext h fun unseen body rest hunseen hbody hcs => ?_
        obtain rfl := List.length_eq_zero_iff.mp hunseen
        obtain ⟨outer, rfl⟩ := Nat.exists_eq_succ_of_ne_zero (Nat.ne_of_gt hdepth)
        exact .leave hbody
      · next hleave =>
        refine hnext h fun unseen body rest hunseen hbody hcs => ?_
        obtain rfl := List.length_eq_zero_iff.mp hunseen
        refine .char hhidden (fun hc => ?_) (fun hc => absurd hc hdollar) (fun hc => ?_) hbody
        · exact Nat.pos_of_ne_zero fun hdepth => hquote ⟨hc, hdepth⟩
        · exact Nat.eq_zero_of_not_pos fun hdepth => hleave ⟨hc, hdepth⟩

end LazyConfig.Lexer
