-- Numbers as they are written: digits, perhaps a fraction, perhaps an exponent, perhaps the mark of
-- a whole number. No part starts as another goes on, so each reader stops where its part ends.
-- Main statements: a number before what cannot go on with it is read as a whole, and what is read
-- is the longest number there is.
import LazyConfig.Proofs.Source.Glyphs

namespace LazyConfig.Lexer

open Utf8 (width)

variable {offset : Nat} {cs w rest : List Char} {left : List Glyph}

/-! ## The parts of a number -/

/-- A row of digits, of which there is at least one. -/
structure IsDigits (w : List Char) : Prop where
  nonempty : w ≠ []
  digits : ∀ c ∈ w, c.isDigit = true

/-- Nothing, or a point and digits. -/
def IsFraction (w : List Char) : Prop := w = [] ∨ ∃ ds, IsDigits ds ∧ w = '.' :: ds

/-- Nothing, or one of the two signs. -/
def IsSign (w : List Char) : Prop := w = [] ∨ w = ['+'] ∨ w = ['-']

/-- Nothing, or a letter for the exponent, perhaps a sign, and digits. -/
def IsExponent (w : List Char) : Prop :=
  w = [] ∨ ∃ e sign ds, (e = 'e' ∨ e = 'E') ∧ IsSign sign ∧ IsDigits ds ∧ w = e :: (sign ++ ds)

/-- Nothing, or the mark of a whole number. -/
def IsMark (w : List Char) : Prop := w = [] ∨ w = ['n']

/-- A number: digits, perhaps a fraction, perhaps an exponent, perhaps the mark. -/
def IsNumber (w : List Char) : Prop :=
  ∃ whole part power mark, IsDigits whole ∧ IsFraction part ∧ IsExponent power ∧ IsMark mark ∧
    w = whole ++ (part ++ (power ++ mark))

/-- The characters that could go on with a number. -/
def goesOnNumber (c : Char) : Bool := isNameRest c || c = '.'

theorem goesOnNumber_of_isDigit {c : Char} (h : c.isDigit = true) : goesOnNumber c = true := by
  simp [goesOnNumber, isNameRest, Char.isAlphanum, h]

/-- A row of digits is a first digit and more. -/
theorem IsDigits.exists_cons {ds : List Char} (h : IsDigits ds) :
    ∃ d more, ds = d :: more ∧ d.isDigit = true := by
  cases ds with
  | nil => exact absurd rfl h.nonempty
  | cons d more => exact ⟨d, more, rfl, h.digits d (by simp)⟩

theorem took_digits {d : Char} (hd : d.isDigit = true)
    (h : skipWhile Char.isDigit (places offset (d :: cs)) = .ok left) :
    Took (Longest IsDigits (d :: cs)) offset (d :: cs) left := by
  rw [skipWhile_places, Except.ok.injEq] at h
  refine ⟨(d :: cs).takeWhile Char.isDigit, (d :: cs).dropWhile Char.isDigit, ⟨⟨?_, ?_⟩, ?_⟩,
    (List.takeWhile_append_dropWhile).symm, h.symm⟩
  · simp [hd]
  · exact fun c hc => List.mem_takeWhile_imp hc
  · exact fun v hv hcs => length_le_takeWhile hv.digits hcs

/-- No digits start at what is no digit. -/
theorem not_digits_beginning {ds : List Char} (h : Avoids Char.isDigit cs) (hds : IsDigits ds) :
    ¬ ds <+: cs := by
  obtain ⟨d, more, rfl, hd⟩ := hds.exists_cons
  rintro ⟨rest, rfl⟩
  rw [List.cons_append, avoids_cons, hd] at h
  cases h

/-! ## The fraction -/

theorem isFraction_cons {c : Char} {ds : List Char} :
    IsFraction (c :: ds) ↔ c = '.' ∧ IsDigits ds := by
  constructor
  · rintro (h | ⟨ds', hds, h⟩)
    · cases h
    · obtain ⟨rfl, rfl⟩ := List.cons.inj h
      exact ⟨rfl, hds⟩
  · rintro ⟨rfl, hds⟩
    exact .inr ⟨ds, hds, rfl⟩

/-- Where a fraction is cut off, its point or a digit comes next. -/
theorem IsFraction.next {x more : List Char} {c : Char} (hx : IsFraction x)
    (h : IsFraction (x ++ c :: more)) : c = '.' ∨ c.isDigit = true := by
  rcases hx with rfl | ⟨ds, hds, rfl⟩
  · exact .inl (isFraction_cons.mp h).1
  · exact .inr ((isFraction_cons.mp h).2.digits c (by simp))

theorem fraction_word (hw : IsFraction w)
    (hrest : Avoids (fun c => c.isDigit || c = '.') rest) (offset : Nat) :
    fraction (places offset (w ++ rest)) = .ok (places (offset + width w) rest) := by
  rcases hw with rfl | ⟨ds, hds, rfl⟩
  · cases rest with
    | nil => rfl
    | cons c rest =>
      have hc : c ≠ '.' := by
        rintro rfl
        simp [avoids_cons] at hrest
      simp [fraction, peek, places_cons, bind, Except.bind, hc]
  · obtain ⟨d, more, rfl, hd⟩ := hds.exists_cons
    have hmore := skipWhile_word hds.digits (hrest.mono fun c hc => by simp [hc])
      (offset + '.'.utf8Size)
    rw [Utf8.width_cons, ← Nat.add_assoc, ← hmore]
    simp [fraction, peek, places_cons, bind, Except.bind, hd]

theorem took_fraction (h : fraction (places offset cs) = .ok left) :
    Took (Longest IsFraction cs) offset cs left := by
  have hstay : (∀ c ds, IsFraction (c :: ds) → ¬ c :: ds <+: cs) →
      Took (Longest IsFraction cs) offset cs (places offset cs) := fun hnone =>
    took_nothing (longest_nothing (.inl rfl) hnone)
  rcases cs with _ | ⟨c, cs⟩
  · cases h
    exact hstay fun c ds _ => by simp
  by_cases hc : c = '.'
  · subst hc
    rcases cs with _ | ⟨d, more⟩
    · cases h
      refine hstay fun c ds hds hcs => ?_
      exact not_digits_beginning (avoids_nil _) (isFraction_cons.mp hds).2
        (List.cons_prefix_cons.mp hcs).2
    · by_cases hd : d.isDigit = true
      · have hskip : skipWhile Char.isDigit (places (offset + '.'.utf8Size) (d :: more)) =
            .ok left := by
          rw [← h]
          simp [fraction, peek, places_cons, bind, Except.bind, hd]
        refine (took_digits hd hskip).cons fun w hw => ⟨.inr ⟨w, hw.fits, rfl⟩, fun v hv hcs => ?_⟩
        cases v with
        | nil => exact Nat.zero_le _
        | cons c ds =>
          exact Nat.succ_le_succ (hw.longest ds (isFraction_cons.mp hv).2
            (List.cons_prefix_cons.mp hcs).2)
      · simp only [fraction, peek, places_cons, bind, Except.bind, List.tail_cons, hd] at h
        cases h
        refine hstay fun c ds hds hcs => ?_
        exact not_digits_beginning (avoids_cons.mpr (by simpa using hd)) (isFraction_cons.mp hds).2
          (List.cons_prefix_cons.mp hcs).2
  · have hskip : fraction (places offset (c :: cs)) = .ok (places offset (c :: cs)) := by
      simp [fraction, peek, places_cons, bind, Except.bind, hc]
    rw [hskip] at h
    cases h
    refine hstay fun d ds hds hcs => hc ?_
    rw [← (isFraction_cons.mp hds).1, (List.cons_prefix_cons.mp hcs).1]

/-! ## The exponent -/

theorem sign_word (hw : IsSign w) (hrest : Avoids (fun c => c = '+' || c = '-') rest)
    (offset : Nat) :
    sign (places offset (w ++ rest)) = .ok (places (offset + width w) rest) := by
  rcases hw with rfl | rfl | rfl
  · cases rest with
    | nil => rfl
    | cons c rest =>
      have hc : ¬(c = '+' ∨ c = '-') := by simpa [avoids_cons] using hrest
      simp [sign, peek, places_cons, bind, Except.bind, hc]
  · rfl
  · rfl

theorem took_sign (h : sign (places offset cs) = .ok left) :
    Took (Longest IsSign cs) offset cs left := by
  have hshort : ∀ v, IsSign v → v.length ≤ 1 := by
    rintro v (rfl | rfl | rfl)
    all_goals decide
  rcases cs with _ | ⟨c, cs⟩
  · cases h
    exact took_nothing (longest_nothing (.inl rfl) fun c v _ => by simp)
  simp only [sign, peek, places_cons, bind, Except.bind, List.tail_cons] at h
  split at h
  · next hc =>
    cases h
    refine ⟨[c], cs, ⟨?_, fun v hv _ => hshort v hv⟩, rfl, rfl⟩
    rcases hc with rfl | rfl
    · exact .inr (.inl rfl)
    · exact .inr (.inr rfl)
  · next hc =>
    cases h
    refine took_nothing (longest_nothing (.inl rfl) fun d v hv hcs => hc ?_)
    rw [← (List.cons_prefix_cons.mp hcs).1]
    rcases hv with hv | hv | hv
    · cases hv
    · exact .inl (List.cons.inj hv).1
    · exact .inr (List.cons.inj hv).1

/-- A sign before digits is the whole sign that is there. -/
theorem IsSign.eq_of_digits {s s' ds : List Char} (hs' : IsSign s') (hds : IsDigits ds)
    (hs : Longest IsSign (s ++ rest) s) (h : s' ++ ds <+: s ++ rest) : s' = s := by
  have hlen := hs.longest s' hs' ((List.prefix_append s' ds).trans h)
  have hpre := List.prefix_of_prefix_length_le ((List.prefix_append s' ds).trans h)
    (List.prefix_append s rest) hlen
  rcases hs.fits with rfl | rfl | rfl
  · exact List.prefix_nil.mp hpre
  all_goals
    rcases hs' with rfl | rfl | rfl
    · refine absurd h (not_digits_beginning (avoids_cons.mpr ?_) hds)
      decide
    · simp_all
    · simp_all

/-- The letters that start an exponent. -/
def isPower (c : Char) : Bool := c = 'e' || c = 'E'

theorem isExponent_cons {e : Char} {w : List Char} :
    IsExponent (e :: w) ↔
      (e = 'e' ∨ e = 'E') ∧ ∃ s ds, IsSign s ∧ IsDigits ds ∧ w = s ++ ds := by
  constructor
  · rintro (h | ⟨e', s, ds, he, hs, hds, h⟩)
    · cases h
    · obtain ⟨rfl, rfl⟩ := List.cons.inj h
      exact ⟨he, s, ds, hs, hds, rfl⟩
  · rintro ⟨he, s, ds, hs, hds, rfl⟩
    exact .inr ⟨e, s, ds, he, hs, hds, rfl⟩

/-- Where an exponent is cut off, its letter or a digit comes next. -/
theorem IsExponent.next {x more : List Char} {c : Char} (hx : IsExponent x)
    (h : IsExponent (x ++ c :: more)) : isPower c = true ∨ c.isDigit = true := by
  rcases hx with rfl | ⟨e, s, ds, -, -, hds, rfl⟩
  · exact .inl (by simpa [isPower] using (isExponent_cons.mp h).1)
  · obtain ⟨d, digits, rfl, -⟩ := hds.exists_cons
    obtain ⟨-, s', ds', hs', hds', heq⟩ := isExponent_cons.mp h
    -- A sign is one character at most, so what is cut off is among the digits.
    have hmem : c ∈ ds' := by
      rcases hs' with rfl | rfl | rfl
      · rw [List.nil_append] at heq
        simp [← heq]
      all_goals
        cases s with
        | nil =>
          have htail : digits ++ c :: more = ds' := (List.cons.inj heq).2
          simp [← htail]
        | cons _ s =>
          have htail : s ++ d :: digits ++ c :: more = ds' := (List.cons.inj heq).2
          simp [← htail]
    exact .inr (hds'.digits c hmem)

theorem exponent_word (hw : IsExponent w)
    (hrest : Avoids (fun c => c.isDigit || isPower c) rest) (offset : Nat) :
    exponent (places offset (w ++ rest)) = .ok (places (offset + width w) rest) := by
  rcases hw with rfl | ⟨e, s, ds, he, hs, hds, rfl⟩
  · cases rest with
    | nil => rfl
    | cons c rest =>
      have hc : ¬(c = 'e' ∨ c = 'E') := fun hc => by
        rcases hc with rfl | rfl
        · simp [avoids_cons, isPower] at hrest
        · simp [avoids_cons, isPower] at hrest
      simp [exponent, peek, places_cons, bind, Except.bind, hc]
  · obtain ⟨d, more, rfl, hd⟩ := hds.exists_cons
    have hsign : Avoids (fun c => c = '+' || c = '-') (d :: more ++ rest) := by
      rw [List.cons_append, avoids_cons, Bool.or_eq_false_iff]
      constructor
      all_goals
        rw [decide_eq_false_iff_not]
        rintro rfl
        revert hd
        decide
    have hsigns := sign_word hs hsign (offset + e.utf8Size)
    have hdigits := skipWhile_word hds.digits (hrest.mono fun c hc => by simp [hc])
      (offset + e.utf8Size + width s)
    rw [Utf8.width_cons, Utf8.width_append, ← Nat.add_assoc, ← Nat.add_assoc, ← hdigits,
      List.cons_append, List.append_assoc, places_cons]
    simp only [exponent, peek, bind, Except.bind, if_pos he, List.tail_cons, hsigns]
    simp [places_cons, hd]

theorem took_exponent (h : exponent (places offset cs) = .ok left) :
    Took (Longest IsExponent cs) offset cs left := by
  have hstay : (∀ e w, IsExponent (e :: w) → ¬ e :: w <+: cs) →
      Took (Longest IsExponent cs) offset cs (places offset cs) := fun hnone =>
    took_nothing (longest_nothing (.inl rfl) hnone)
  rcases cs with _ | ⟨e, cs⟩
  · cases h
    exact hstay fun e w _ => by simp
  simp only [exponent, peek, places_cons, bind, Except.bind, List.tail_cons] at h
  split at h
  · next he =>
    cases hsign : sign (places (offset + e.utf8Size) cs) with
    | error _ =>
      rw [hsign] at h
      cases h
    | ok digits =>
      obtain ⟨s, ds, hs, rfl, rfl⟩ := took_sign hsign
      rw [hsign] at h
      have hpart : ∀ e' w, IsExponent (e' :: w) → e' :: w <+: e :: (s ++ ds) →
          ∃ ds', IsDigits ds' ∧ w = s ++ ds' ∧ ds' <+: ds := by
        intro e' w hw hcs
        obtain ⟨-, s', ds', hs', hds', rfl⟩ := isExponent_cons.mp hw
        have hcs := (List.cons_prefix_cons.mp hcs).2
        obtain rfl := hs'.eq_of_digits hds' hs hcs
        exact ⟨ds', hds', rfl, (List.prefix_append_right_inj _).mp hcs⟩
      have hnone : Avoids Char.isDigit ds → Took (Longest IsExponent (e :: (s ++ ds))) offset
          (e :: (s ++ ds)) (places offset (e :: (s ++ ds))) := by
        refine fun hds => hstay fun e' w hw hcs => ?_
        obtain ⟨ds', hds', -, hpre⟩ := hpart e' w hw hcs
        exact not_digits_beginning hds hds' hpre
      cases ds with
      | nil =>
        cases h
        exact hnone (avoids_nil _)
      | cons d more =>
        simp only [places_cons] at h
        split at h
        · next hd =>
          obtain ⟨w, rest, hw, hcs, rfl⟩ := took_digits hd h
          refine ⟨e :: (s ++ w), rest,
            ⟨.inr ⟨e, s, w, he, hs.fits, hw.fits, rfl⟩, ?_⟩, by simp [hcs], ?_⟩
          · intro v hv hpre
            cases v with
            | nil => exact Nat.zero_le _
            | cons e' v =>
              obtain ⟨ds', hds', rfl, hds⟩ := hpart e' v hv hpre
              have := hw.longest ds' hds' hds
              simp only [List.length_cons, List.length_append]
              omega
          · simp [Utf8.width_append, Nat.add_assoc]
        · next hd =>
          cases h
          exact hnone (avoids_cons.mpr (by simpa using hd))
  · next he =>
    cases h
    refine hstay fun e' w hw hcs => he ?_
    rw [← (List.cons_prefix_cons.mp hcs).1]
    exact (isExponent_cons.mp hw).1

/-! ## The mark -/

theorem bigMark_word (hw : IsMark w) (hrest : Avoids (· = 'n') rest) (offset : Nat) :
    bigMark (places offset (w ++ rest)) = .ok (places (offset + width w) rest) := by
  rcases hw with rfl | rfl
  · cases rest with
    | nil => rfl
    | cons c rest =>
      have hc : c ≠ 'n' := by simpa [avoids_cons] using hrest
      simp [bigMark, peek, places_cons, bind, Except.bind, hc]
  · rfl

theorem took_bigMark (h : bigMark (places offset cs) = .ok left) :
    Took (Longest IsMark cs) offset cs left := by
  have hshort : ∀ v, IsMark v → v.length ≤ 1 := by
    rintro v (rfl | rfl)
    all_goals decide
  simp only [bigMark, peek_places, bind, Except.bind] at h
  split at h
  · next hc =>
    obtain ⟨cs, rfl⟩ := List.head?_eq_some_iff.mp hc
    cases h
    exact ⟨['n'], cs, ⟨.inr rfl, fun v hv _ => hshort v hv⟩, rfl, rfl⟩
  · next hc =>
    cases h
    refine took_nothing (longest_nothing (.inl rfl) fun c v hv hcs => hc ?_)
    obtain ⟨rest, rfl⟩ := hcs
    rcases hv with hv | hv
    · cases hv
    · rw [hv]
      rfl

/-! ## The parts of a number do not run into each other -/

theorem avoids_mark {p : Char → Bool} (hp : p 'n' = false) (hw : IsMark w) : Avoids p w := by
  rcases hw with rfl | rfl
  · exact avoids_nil p
  · exact avoids_cons.mpr hp

theorem avoids_exponent {p : Char → Bool} (hp : ∀ c, isPower c = true → p c = false)
    (hw : IsExponent w) : Avoids p w := by
  rcases hw with rfl | ⟨e, s, ds, he, -, -, rfl⟩
  · exact avoids_nil p
  · exact avoids_cons.mpr (hp e (by simpa [isPower] using he))

theorem avoids_fraction {p : Char → Bool} (hp : p '.' = false) (hw : IsFraction w) :
    Avoids p w := by
  rcases hw with rfl | ⟨ds, -, rfl⟩
  · exact avoids_nil p
  · exact avoids_cons.mpr hp

theorem isPower_ne {c : Char} (h : isPower c = true) : c.isDigit = false ∧ c ≠ '.' := by
  simp only [isPower, Bool.or_eq_true, decide_eq_true_eq] at h
  rcases h with rfl | rfl
  · decide
  · decide

theorem goesOnNumber_of_isPower {c : Char} (h : isPower c = true) : goesOnNumber c = true := by
  simp only [isPower, Bool.or_eq_true, decide_eq_true_eq] at h
  rcases h with rfl | rfl
  · decide
  · decide

/-- The digits of a number whose first one is read, and its other parts. -/
theorem number_word {digits part power mark : List Char}
    (hdigits : ∀ c ∈ digits, c.isDigit = true) (hpart : IsFraction part)
    (hpower : IsExponent power) (hmark : IsMark mark) (hrest : Avoids goesOnNumber rest)
    (offset : Nat) :
    number (places offset (digits ++ (part ++ (power ++ (mark ++ rest))))) =
      .ok (places (offset + width (digits ++ (part ++ (power ++ mark)))) rest) := by
  have h₁ : Avoids Char.isDigit (part ++ (power ++ (mark ++ rest))) :=
    (avoids_fraction (by decide) hpart).append
      ((avoids_exponent (fun c hc => (isPower_ne hc).1) hpower).append
        ((avoids_mark (by decide) hmark).append
          (hrest.mono fun c => goesOnNumber_of_isDigit)))
  have h₂ : Avoids (fun c => c.isDigit || c = '.') (power ++ (mark ++ rest)) :=
    (avoids_exponent (fun c hc => by simp [isPower_ne hc]) hpower).append
      ((avoids_mark (by decide) hmark).append (hrest.mono fun c hc => by
        rcases Bool.or_eq_true _ _ ▸ hc with hc | hc
        · exact goesOnNumber_of_isDigit hc
        · simp [goesOnNumber, hc]))
  have h₃ : Avoids (fun c => c.isDigit || isPower c) (mark ++ rest) :=
    (avoids_mark (by decide) hmark).append (hrest.mono fun c hc => by
      rcases Bool.or_eq_true _ _ ▸ hc with hc | hc
      · exact goesOnNumber_of_isDigit hc
      · exact goesOnNumber_of_isPower hc)
  have h₄ : Avoids (· = 'n') rest := hrest.mono fun c hc => by
    simp only [decide_eq_true_eq] at hc
    subst hc
    decide
  simp only [number, bind, Except.bind, skipWhile_word hdigits h₁, fraction_word hpart h₂,
    exponent_word hpower h₃, bigMark_word hmark h₄, Utf8.width_append, Nat.add_assoc]

/-! ## The longest number -/

/-- What may come after the digits and the fraction of a number. -/
def IsPowerMark (w : List Char) : Prop :=
  ∃ power mark, IsExponent power ∧ IsMark mark ∧ w = power ++ mark

/-- What may come after the first digits of a number. -/
def IsTail (w : List Char) : Prop :=
  ∃ part more, IsFraction part ∧ IsPowerMark more ∧ w = part ++ more

theorem isNumber_iff :
    IsNumber w ↔ ∃ whole more, IsDigits whole ∧ IsTail more ∧ w = whole ++ more := by
  constructor
  · rintro ⟨whole, part, power, mark, hwhole, hpart, hpower, hmark, rfl⟩
    exact ⟨whole, _, hwhole, ⟨part, _, hpart, ⟨power, mark, hpower, hmark, rfl⟩, rfl⟩, rfl⟩
  · rintro ⟨whole, _, hwhole, ⟨part, _, hpart, ⟨power, mark, hpower, hmark, rfl⟩, rfl⟩, rfl⟩
    exact ⟨whole, part, power, mark, hwhole, hpart, hpower, hmark, rfl⟩

theorem IsPowerMark.avoids {p : Char → Bool} (hpower : ∀ c, isPower c = true → p c = false)
    (hmark : p 'n' = false) (h : IsPowerMark w) : Avoids p w := by
  obtain ⟨power, mark, hw, hw', rfl⟩ := h
  exact (avoids_exponent hpower hw).append (avoids_mark hmark hw')

theorem took_number {c : Char} (hc : c.isDigit = true)
    (h : number (places (offset + c.utf8Size) cs) = .ok left) :
    Took (Longest IsNumber (c :: cs)) offset (c :: cs) left := by
  unfold number at h
  obtain ⟨a, ha, h⟩ := bind_ok h
  obtain ⟨b, hb, h⟩ := bind_ok h
  obtain ⟨d, hd, h⟩ := bind_ok h
  have hskip : skipWhile Char.isDigit (places offset (c :: cs)) = .ok a := by
    simpa [places_cons, skipWhile, hc] using ha
  obtain ⟨whole, cs', hwhole, hcs, rfl⟩ := took_digits hc hskip
  rw [hcs] at hwhole ⊢
  obtain ⟨part, cs, hpart, rfl, rfl⟩ := took_fraction hb
  obtain ⟨power, cs, hpower, rfl, rfl⟩ := took_exponent hd
  obtain ⟨mark, cs, hmark, rfl, rfl⟩ := took_bigMark h
  -- Where a part is cut off, what comes next starts none of the parts after it.
  have hpowerMark : Longest IsPowerMark (power ++ (mark ++ cs)) (power ++ mark) := by
    refine hpower.append hmark fun x c more hx hmore y hy => avoids_mark (decide_eq_false ?_) hy
    rintro rfl
    have := hx.next hmore
    simp [isPower] at this
  have htail : Longest IsTail (part ++ (power ++ (mark ++ cs))) (part ++ (power ++ mark)) := by
    refine hpart.append hpowerMark fun x c more hx hmore y hy =>
      hy.avoids (fun d hd => decide_eq_false ?_) (decide_eq_false ?_)
    · rintro rfl
      rcases hx.next hmore with hpoint | hdigit
      · exact (isPower_ne hd).2 hpoint
      · simp [isPower_ne hd] at hdigit
    · rintro rfl
      have := hx.next hmore
      simp at this
  have hnumber : Longest IsNumber (whole ++ (part ++ (power ++ (mark ++ cs))))
      (whole ++ (part ++ (power ++ mark))) := by
    refine (hwhole.append htail fun x c more _ hmore y hy => ?_).congr fun v => isNumber_iff.symm
    have hdigit := hmore.digits c (by simp)
    obtain ⟨part, more, hpart, hmore, rfl⟩ := hy
    refine (avoids_fraction (decide_eq_false ?_) hpart).append
      (hmore.avoids (fun d hd => decide_eq_false ?_) (decide_eq_false ?_))
    · rintro rfl
      cases hdigit
    · rintro rfl
      simp [isPower_ne hd] at hdigit
    · rintro rfl
      cases hdigit
  refine ⟨whole ++ (part ++ (power ++ mark)), cs, hnumber, by simp, ?_⟩
  simp [Utf8.width_append, Nat.add_assoc]

end LazyConfig.Lexer
