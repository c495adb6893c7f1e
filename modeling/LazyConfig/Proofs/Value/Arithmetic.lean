-- Arithmetic on whole numbers against arithmetic on integers. A quotient is truncated toward zero,
-- and a remainder has the sign of the dividend, which determines both.
-- Main statement: an operator gives the exact result, or overflows where that does not fit. A
-- remainder overflows with its quotient, also where it would fit itself.
import LazyConfig.Value.Operation
import Mathlib.Algebra.Group.Int.Defs

namespace LazyConfig

/-! ## Exact results -/

/-- Whether an integer fits in 128 bits with a sign. -/
def Int128.Fits (n : Int) : Prop := -2 ^ 127 ≤ n ∧ n ≤ 2 ^ 127 - 1

instance (n : Int) : Decidable (Int128.Fits n) := inferInstanceAs (Decidable (_ ∧ _))

/-- The integer `a` is `q` times `b` and the rest `r`, which is smaller than `b` and has the sign of
`a`, so that the quotient is truncated toward zero. -/
structure Division (a b q r : Int) : Prop where
  sum : q * b + r = a
  small : r.natAbs < b.natAbs
  sign : r = 0 ∨ r.sign = a.sign

/-- The exact results of the arithmetic operators. -/
inductive ExactResult : BinaryOp → Int → Int → Int → Prop
  | add (a b : Int) : ExactResult .add a b (a + b)
  | sub (a b : Int) : ExactResult .sub a b (a - b)
  | mul (a b : Int) : ExactResult .mul a b (a * b)
  | div {a b q r : Int} (h : Division a b q r) : ExactResult .div a b q
  | rem {a b q r : Int} (h : Division a b q r) : ExactResult .rem a b r

theorem division_tdiv (a : Int) {b : Int} (hb : b ≠ 0) : Division a b (a.tdiv b) (a.tmod b) := by
  have hsmall : a.natAbs % b.natAbs < b.natAbs := Nat.mod_lt _ (by omega)
  refine ⟨Int.tdiv_mul_add_tmod a b, by rwa [Int.natAbs_tmod], ?_⟩
  rcases Int.lt_trichotomy a 0 with ha | rfl | ha
  · have hneg : 0 ≤ (-a).tmod b := Int.tmod_nonneg b (by omega)
    rw [Int.neg_tmod] at hneg
    rcases Int.lt_or_eq_of_le (show a.tmod b ≤ 0 by omega) with h | h
    · exact .inr (by rw [Int.sign_eq_neg_one_of_neg h, Int.sign_eq_neg_one_of_neg ha])
    · exact .inl h
  · exact .inl (Int.zero_tmod b)
  · rcases Int.lt_or_eq_of_le (Int.tmod_nonneg b (Int.le_of_lt ha)) with h | h
    · exact .inr (by rw [Int.sign_eq_one_of_pos h, Int.sign_eq_one_of_pos ha])
    · exact .inl h.symm

theorem Division.divisor_ne_zero {a b q r : Int} (h : Division a b q r) : b ≠ 0 := by
  rintro rfl
  exact absurd h.small (Nat.not_lt_zero _)

/-- There is one quotient and one remainder. -/
theorem Division.unique {a b q r q' r' : Int} (h : Division a b q r) (h' : Division a b q' r') :
    q = q' ∧ r = r' := by
  -- Two rests with the sign of `a` are less than `b` apart, but `b` divides their difference.
  have hsame : 0 ≤ a ∧ 0 ≤ r ∧ 0 ≤ r' ∨ a ≤ 0 ∧ r ≤ 0 ∧ r' ≤ 0 := by
    have hrest : ∀ {x : Int}, x = 0 ∨ x.sign = a.sign → (0 ≤ a → 0 ≤ x) ∧ (a ≤ 0 → x ≤ 0) := by
      rintro x (rfl | hx)
      · exact ⟨fun _ => Int.le_refl 0, fun _ => Int.le_refl 0⟩
      · rw [← Int.sign_nonneg_iff, ← Int.sign_nonpos_iff, ← hx, Int.sign_nonneg_iff,
          Int.sign_nonpos_iff]
        exact ⟨id, id⟩
    obtain ⟨hr, hr0⟩ := hrest h.sign
    obtain ⟨hr', hr0'⟩ := hrest h'.sign
    rcases Int.le_total 0 a with ha | ha
    · exact .inl ⟨ha, hr ha, hr' ha⟩
    · exact .inr ⟨ha, hr0 ha, hr0' ha⟩
  have hsmall := h.small
  have hsmall' := h'.small
  have hapart : (r' - r).natAbs < b.natAbs := by omega
  have hmul : (q - q') * b = r' - r := by
    rw [Int.sub_mul]
    have := h.sum
    have := h'.sum
    omega
  rw [← hmul, Int.natAbs_mul] at hapart
  have hzero : (q - q').natAbs = 0 :=
    Nat.eq_zero_of_not_pos fun hpos =>
      absurd hapart (Nat.not_lt.mpr (Nat.le_mul_of_pos_left _ hpos))
  obtain rfl : q = q' := by omega
  rw [Int.sub_self, Int.zero_mul] at hmul
  exact ⟨rfl, by omega⟩

theorem ExactResult.unique {op : BinaryOp} {a b n n' : Int} (h : ExactResult op a b n)
    (h' : ExactResult op a b n') : n = n' := by
  cases h with
  | add | sub | mul => cases h'; rfl
  | div h => cases h' with | div h' => exact (h.unique h').1
  | rem h => cases h' with | rem h' => exact (h.unique h').2

/-! ## Results that fit -/

namespace Int128

theorem fits (n : Int128) : Fits n.val := by
  have hleast := n.least_le
  have hbound := n.lt_bound
  unfold Fits
  omega

theorem ofInt?_of_fits {n : Int} (h : Fits n) : ∃ c : Int128, c.val = n ∧ ofInt? n = some c := by
  unfold Fits at h
  exact ⟨⟨n, by omega, by omega⟩, rfl, ofInt?_eq_some.mpr rfl⟩

theorem ofInt?_of_not_fits {n : Int} (h : ¬ Fits n) : ofInt? n = none := by
  rw [ofInt?_eq_none]
  unfold Fits at h
  omega

/-- Only one quotient does not fit. -/
theorem fits_tdiv_iff (a : Int128) {b : Int} (hb : b ≠ 0) :
    Fits (a.val.tdiv b) ↔ ¬ (a.val = -2 ^ 127 ∧ b = -1) := by
  have ha := a.fits
  have hquotient := Int.natAbs_tdiv a.val b
  unfold Fits at ha ⊢
  constructor
  · rintro hfits ⟨hleast, rfl⟩
    rw [hleast] at hfits
    exact absurd hfits (by decide)
  · intro hnot
    by_cases hone : b.natAbs = 1
    · rcases (show b = 1 ∨ b = -1 by omega) with rfl | rfl
      · rwa [Int.tdiv_one]
      · rw [Int.tdiv_neg, Int.tdiv_one]
        omega
    · have hhalf : a.val.natAbs / b.natAbs ≤ a.val.natAbs / 2 :=
        Nat.div_le_div_left (by omega) (by decide)
      change _ = a.val.natAbs / b.natAbs at hquotient
      omega

theorem fits_tmod (a : Int) (b : Int128) (hb : b.val ≠ 0) : Fits (a.tmod b.val) := by
  have hfits := b.fits
  have hrest := Int.natAbs_tmod a b.val
  have hsmall : a.natAbs % b.val.natAbs < b.val.natAbs := Nat.mod_lt _ (by omega)
  unfold Fits at hfits ⊢
  omega

/-- What the quotient takes out of the dividend lies between zero and the dividend. -/
theorem fits_tdiv_mul (a : Int128) (b : Int) : Fits (a.val.tdiv b * b) := by
  have ha := a.fits
  have hsum := Int.tdiv_mul_add_tmod a.val b
  have hrest := Int.natAbs_tmod a.val b
  have hle : a.val.natAbs % b.natAbs ≤ a.val.natAbs := Nat.mod_le _ _
  have hsign : (0 ≤ a.val → 0 ≤ a.val.tmod b) ∧ (a.val ≤ 0 → a.val.tmod b ≤ 0) := by
    refine ⟨Int.tmod_nonneg b, fun h => ?_⟩
    have hneg := Int.tmod_nonneg b (show 0 ≤ -a.val by omega)
    rw [Int.neg_tmod] at hneg
    omega
  unfold Fits at ha ⊢
  omega

end Int128

/-! ## Operators -/

namespace Value

/-- An outcome is exact: it is the number, or an overflow if the number does not fit. -/
def Exactly (n : Int) (outcome : Except RuntimeCause Value) : Prop :=
  (outcome = .error .overflow ↔ ¬ Int128.Fits n) ∧
    (Int128.Fits n → ∃ c : Int128, c.val = n ∧ outcome = .ok (.bigint c))

theorem exactly_ofInt? (n : Int) : Exactly n (exact (Int128.ofInt? n)) := by
  by_cases h : Int128.Fits n
  · obtain ⟨c, hc, hn⟩ := Int128.ofInt?_of_fits h
    rw [hn]
    exact ⟨iff_of_false (by simp [exact]) (not_not_intro h), fun _ => ⟨c, hc, rfl⟩⟩
  · rw [Int128.ofInt?_of_not_fits h]
    exact ⟨iff_of_true rfl h, fun hfits => absurd hfits h⟩

variable (fresh : Identity) (a b : Int128)

theorem div_of_ne {a b : Int128} (hb : b.val ≠ 0) :
    binary fresh .div (.bigint a) (.bigint b) = exact (Int128.ofInt? (a.val.tdiv b.val)) :=
  if_neg hb

/-- A remainder is exact unless the quotient does not fit. -/
theorem rem_of_ne {a b : Int128} (hb : b.val ≠ 0) :
    binary fresh .rem (.bigint a) (.bigint b) =
      if a.val = -2 ^ 127 ∧ b.val = -1 then .error .overflow
      else exact (Int128.ofInt? (a.val.tmod b.val)) := by
  have hrem : binary fresh .rem (.bigint a) (.bigint b) = exact (a.rem? b) := if_neg hb
  rw [hrem, Int128.rem?, Int128.div?]
  by_cases hleast : a.val = -2 ^ 127 ∧ b.val = -1
  · rw [if_pos hleast, Int128.ofInt?_of_not_fits]
    · rfl
    · rw [Int128.fits_tdiv_iff a hb]
      exact not_not_intro hleast
  · obtain ⟨q, _, hq⟩ := Int128.ofInt?_of_fits ((Int128.fits_tdiv_iff a hb).mpr hleast)
    rw [if_neg hleast, hq]
    rfl

/-- The operators that give an integer for two integers. -/
def arithmetic : List BinaryOp := [.add, .sub, .mul, .div, .rem]

/-- The operators that divide. -/
def divisions : List BinaryOp := [.div, .rem]

theorem exists_exactResult {op : BinaryOp} (hop : op ∈ arithmetic) {a b : Int}
    (h : ¬ (op ∈ divisions ∧ b = 0)) : ∃ n, ExactResult op a b n := by
  have hdivision : op ∈ divisions → Division a b (a.tdiv b) (a.tmod b) :=
    fun hmem => division_tdiv a fun hb => h ⟨hmem, hb⟩
  simp only [arithmetic, List.mem_cons, List.not_mem_nil, or_false] at hop
  rcases hop with rfl | rfl | rfl | rfl | rfl
  · exact ⟨_, .add a b⟩
  · exact ⟨_, .sub a b⟩
  · exact ⟨_, .mul a b⟩
  · exact ⟨_, .div (hdivision (by decide))⟩
  · exact ⟨_, .rem (hdivision (by decide))⟩

/-- The quotient of the least number by minus one does not fit, and the remainder overflows with
it. -/
def Overflowing (op : BinaryOp) (a b : Int) : Prop := op = .rem ∧ a = -2 ^ 127 ∧ b = -1

theorem exactly_binary {op : BinaryOp} {a b : Int128} {n : Int} (h : ExactResult op a.val b.val n)
    (hfine : ¬ Overflowing op a.val b.val) :
    Exactly n (binary fresh op (.bigint a) (.bigint b)) := by
  cases h with
  | add | sub | mul => exact exactly_ofInt? _
  | div h =>
    have hb := h.divisor_ne_zero
    rw [div_of_ne fresh hb, (h.unique (division_tdiv a.val hb)).1]
    exact exactly_ofInt? _
  | rem h =>
    have hb := h.divisor_ne_zero
    rw [rem_of_ne fresh hb, if_neg fun hleast => hfine ⟨rfl, hleast⟩,
      (h.unique (division_tdiv a.val hb)).2]
    exact exactly_ofInt? _

theorem Exactly.ne_divisionByZero {n : Int} {outcome : Except RuntimeCause Value}
    (h : Exactly n outcome) : outcome ≠ .error .divisionByZero := by
  rintro rfl
  by_cases hfits : Int128.Fits n
  · obtain ⟨c, _, hc⟩ := h.2 hfits
    cases hc
  · cases h.1.mpr hfits

/-- Division by zero is told apart from all else. -/
theorem divisionByZero_iff {op : BinaryOp} (hop : op ∈ arithmetic) :
    binary fresh op (.bigint a) (.bigint b) = .error .divisionByZero ↔
      op ∈ divisions ∧ b.val = 0 := by
  constructor
  · intro hzero
    apply Decidable.byContradiction
    intro hfine
    obtain ⟨n, hn⟩ := exists_exactResult (a := a.val) hop hfine
    by_cases hleast : Overflowing op a.val b.val
    · obtain ⟨rfl, hleast⟩ := hleast
      rw [rem_of_ne fresh (by omega), if_pos hleast] at hzero
      cases hzero
    · exact (exactly_binary fresh hn hleast).ne_divisionByZero hzero
  · rintro ⟨hop, hb⟩
    simp only [divisions, List.mem_cons, List.not_mem_nil, or_false] at hop
    rcases hop with rfl | rfl
    · exact if_pos hb
    · exact if_pos hb

/-- Quotient and remainder make up the dividend again. -/
theorem add_mul_div_rem {a b : Int128} {q r : Value}
    (hq : binary fresh .div (.bigint a) (.bigint b) = .ok q)
    (hr : binary fresh .rem (.bigint a) (.bigint b) = .ok r) :
    ∃ p, binary fresh .mul q (.bigint b) = .ok p ∧ binary fresh .add p r = .ok (.bigint a) := by
  have hb : b.val ≠ 0 := by
    intro hb
    have hzero : binary fresh .div (.bigint a) (.bigint b) = .error .divisionByZero := if_pos hb
    rw [hzero] at hq
    cases hq
  have hfine : ¬ (a.val = -2 ^ 127 ∧ b.val = -1) := by
    intro hleast
    rw [rem_of_ne fresh hb, if_pos hleast] at hr
    cases hr
  obtain ⟨q', hq', hdiv⟩ := Int128.ofInt?_of_fits ((Int128.fits_tdiv_iff a hb).mpr hfine)
  obtain ⟨r', hr', hrem⟩ := Int128.ofInt?_of_fits (Int128.fits_tmod a.val b hb)
  obtain ⟨p, hp, hmul⟩ := Int128.ofInt?_of_fits (Int128.fits_tdiv_mul a b.val)
  rw [div_of_ne fresh hb, hdiv] at hq
  rw [rem_of_ne fresh hb, if_neg hfine, hrem] at hr
  cases hq
  cases hr
  have hadd : p.add? r' = some a := by
    rw [Int128.add?, Int128.ofInt?_eq_some, hp, hr']
    exact (Int.tdiv_mul_add_tmod a.val b.val).symm
  refine ⟨.bigint p, ?_, ?_⟩
  · show exact (q'.mul? b) = _
    rw [Int128.mul?, hq', hmul]
    rfl
  · show exact (p.add? r') = _
    rw [hadd]
    rfl

/-- Arithmetic on two whole numbers. It fails with a division by zero exactly if it divides by zero.
Otherwise there is one exact result, which it gives if the result fits, and overflows if not; but
the remainder of the least number by minus one, where the quotient does not fit, is an overflow. So
is a negation if the result does not fit, which is exact otherwise. Where a quotient and a remainder
are given, they make up the dividend again. -/
theorem whole_arithmetic_is_exact :
    (∀ op ∈ arithmetic,
      let outcome := binary fresh op (.bigint a) (.bigint b)
      (outcome = .error .divisionByZero ↔ op ∈ divisions ∧ b.val = 0) ∧
      (¬ (op ∈ divisions ∧ b.val = 0) → ∃ n, ExactResult op a.val b.val n ∧
        (¬ Overflowing op a.val b.val → Exactly n outcome) ∧
        (Overflowing op a.val b.val → outcome = .error .overflow))) ∧
    Exactly (-a.val) (unary .neg (.bigint a)) ∧
    ∀ q r, binary fresh .div (.bigint a) (.bigint b) = .ok q →
      binary fresh .rem (.bigint a) (.bigint b) = .ok r →
        ∃ p, binary fresh .mul q (.bigint b) = .ok p ∧ binary fresh .add p r = .ok (.bigint a) := by
  refine ⟨fun op hop => ⟨divisionByZero_iff fresh a b hop, fun hfine => ?_⟩, exactly_ofInt? _,
    fun q r => add_mul_div_rem fresh⟩
  obtain ⟨n, hn⟩ := exists_exactResult (a := a.val) hop hfine
  refine ⟨n, hn, exactly_binary fresh hn, ?_⟩
  rintro ⟨rfl, hleast⟩
  rw [rem_of_ne fresh (by omega), if_pos hleast]

/-- The least number, and minus one. -/
def least : Int128 := ⟨-2 ^ 127, by decide, by decide⟩

def minusOne : Int128 := ⟨-1, by decide, by decide⟩

/-- The remainder of the least number by minus one is zero, which fits, and yet it overflows. -/
theorem remainder_overflows :
    ExactResult .rem least.val minusOne.val 0 ∧ Int128.Fits 0 ∧
      binary ⟨"", 0⟩ .rem (.bigint least) (.bigint minusOne) = .error .overflow := by
  refine ⟨.rem (division_tdiv _ (by decide)), by decide, ?_⟩
  exact (rem_of_ne _ (by decide)).trans (if_pos (by decide))

end Value

end LazyConfig
