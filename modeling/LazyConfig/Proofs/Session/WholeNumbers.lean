-- Whole numbers written out. An operator can give any whole number, and the text of each is a
-- document. In such a document the digits are read before they are negated, so they must fit
-- without the sign.
-- Main statement: a whole number comes back from its text, but for the least one, whose digits do
-- not fit.
import LazyConfig.Proofs.Document.Failing
import LazyConfig.Proofs.Session.ReadBack
import LazyConfig.Proofs.Value.Arithmetic

namespace LazyConfig

open Store Evaluation

/-! ## Results of operators -/

/-- Some operator gives the number for whole numbers. -/
inductive Int128.IsResult (n : Int128) : Prop
  | binary (fresh : Identity) (op : BinaryOp) (a b : Int128)
      (h : Value.binary fresh op (.bigint a) (.bigint b) = .ok (.bigint n))
  | unary (op : UnaryOp) (a : Int128) (h : Value.unary op (.bigint a) = .ok (.bigint n))

theorem Int128.eq_of_val {a b : Int128} (h : a.val = b.val) : a = b := by
  cases a
  cases b
  cases h
  rfl

/-- All are sums with zero. -/
theorem Int128.isResult (n : Int128) : n.IsResult := by
  have hsum : n.add? default = some n := ofInt?_eq_some.mpr (Int.add_zero n.val).symm
  refine .binary ⟨"", 0⟩ .add n default ?_
  show Value.exact (n.add? default) = _
  rw [hsum]
  rfl

/-! ## Digits -/

namespace Value

/-- Digits that do not fit are no number, whatever is done with it then. -/
theorem ofNumber_digits_of_not_fits {n : Nat} (h : ¬ Int128.Fits n) :
    ofNumber (String.ofList (Nat.toDigits 10 n ++ ['n'])) =
      .error (.invalidNumber (String.ofList (Nat.toDigits 10 n ++ ['n']))) := by
  have hwhole : whole? (Nat.toDigits 10 n) = none := by
    rw [whole?, digitsValue_toDigits, Int128.ofInt?_of_not_fits h, ite_self]
  rw [ofNumber, String.toList_ofList, numberOfChars?_whole, hwhole]
  rfl

/-- The digits of the least number, with the mark. -/
def leastDigits : String := "170141183460469231731687303715884105728n"

theorem literal_least :
    (bigint least).literal = .unary default .neg (.number default leastDigits) := by
  have hdigits : String.ofList (Nat.toDigits 10 least.val.natAbs ++ ['n']) = leastDigits := by
    decide +kernel
  rw [literal, if_pos (by decide), hdigits]

theorem ofNumber_leastDigits : ofNumber leastDigits = .error (.invalidNumber leastDigits) := by
  have hdigits : String.ofList (Nat.toDigits 10 (2 ^ 127) ++ ['n']) = leastDigits := by
    decide +kernel
  rw [← hdigits]
  exact ofNumber_digits_of_not_fits (by decide)

end Value

/-! ## Documents -/

variable {s : Session} {name : String} {n : Int128}

/-- The text of a whole number is read as its literal. -/
theorem exists_root_of_bigint {limit : Nat} (hlimit : (Value.bigint n).text.length ≤ limit) :
    ∃ root, parse limit (Utf8.encode (Value.bigint n).text) = .ok root ∧
      root.bare = (Value.bigint n).literal.bare := by
  have hread :=
    (Value.isLiteral_bigint n).parse (List.forall_mem_nil _) (List.forall_mem_nil _) hlimit
  rwa [List.nil_append, List.append_nil] at hread

theorem Value.eq_bigint_of_bare {v : Value} (h : v.bare = .bigint n) : v = .bigint n := by
  cases v <;> cases h
  rfl

theorem Expr.eq_negated_of_bare {e : Expr} {text : String}
    (h : e.bare = (Expr.unary default .neg (.number default text)).bare) :
    ∃ span span', e = .unary span .neg (.number span' text) := by
  cases e with
  | unary span op inside =>
    obtain ⟨-, rfl, hinside⟩ := Expr.unary.inj h
    cases inside with
    | number span' text' =>
      obtain ⟨-, rfl⟩ := Expr.number.inj hinside
      exact ⟨span, span', rfl⟩
    | _ => cases hinside
  | _ => cases h

/-- A document of one expression that always fails is loaded under a free name, and its value
fails. -/
theorem Session.value_of_failing {bytes : Bytes} {root : Expr} {err : RuntimeError}
    (hparse : parse s.host.maxParseDepth bytes = .ok root)
    (hsingle : documentBindings name root = [⟨name, [name], .expression root⟩])
    (hfails : ∀ left frame p, (Activity.expression left frame root).Fails s.host p (.runtime err))
    (hfree : s.store.contains name = false) (hsteps : 1 ≤ s.store.stepsLeft)
    (hlevels : 1 ≤ s.host.maxDepth) :
    ∃ loaded, s.loadSource name bytes = (.ok (), loaded) ∧
      (loaded.value name).1 = .error (.runtime err) := by
  obtain ⟨hload, hwaiting⟩ := Session.loadSource_free name hparse (by simp [hsingle])
    (by simpa [hsingle] using hfree)
  refine ⟨_, hload, ?_⟩
  obtain ⟨left, hleft⟩ := Nat.exists_eq_add_of_le' hlevels
  have hfind := hwaiting ⟨name, [name], .expression root⟩ (by simp [hsingle])
  have hreply : (s.store.addAll (documentBindings name root)).reply name =
      .run ⟨name, [name], .expression root⟩ :=
    reply_eq_run.mpr ⟨_, hfind, rfl, rfl, Nat.ne_of_gt hsteps⟩
  have hrequest : (Activity.request (left + 1) name).Fails s.host
      ⟨s.store.addAll (documentBindings name root), 0⟩ (.runtime err) :=
    fails_request.mpr ⟨_, hreply, (fails_body_expression rfl).mpr (hfails _ _ _)⟩
  show ((s.store.addAll (documentBindings name root)).value
      (behaviour s.host) s.host.maxDepth name).1 = _
  rw [hleft]
  exact fails_value.mp hrequest

/-- A negated number fails in its place if its digits are no number. -/
theorem fails_negated {host : Host} {left : Nat} {frame : Frame} {p : Stage} {span span' : Span}
    {text : String} {cause : RuntimeCause} (h : Value.ofNumber text = .error cause) :
    (Activity.expression left frame (.unary span .neg (.number span' text))).Fails host p
      (.runtime ⟨cause, some span'⟩) :=
  fails_unary.mpr (.inl (fails_settle.mpr ⟨cause, h, rfl⟩))

/-! ## Reading back -/

/-- Any whole number is the result of an operator. Its text is loaded under a free name, and the
value is the number again; but the text of the least number, which is loaded as well, has no value,
since its digits are read as a number before they are negated, and there is no such number. -/
theorem results_read_back (hfree : s.store.contains name = false) (hsteps : 1 ≤ s.store.stepsLeft)
    (hbytes : 1 ≤ s.store.bytesLeft) (hlevels : 1 ≤ s.host.maxDepth)
    (hparse : (Value.bigint n).text.length ≤ s.host.maxParseDepth) :
    n.IsResult ∧ ∃ loaded,
      s.loadSource name (Utf8.encode (Value.bigint n).text) = (.ok (), loaded) ∧
        (n ≠ Value.least → (loaded.value name).1 = .ok (.bigint n)) ∧
        (n = Value.least → ∃ span, (loaded.value name).1 =
          .error (.runtime ⟨.invalidNumber Value.leastDigits, some span⟩)) := by
  refine ⟨n.isResult, ?_⟩
  obtain ⟨root, hroot, hbare⟩ := exists_root_of_bigint hparse
  by_cases hn : n = Value.least
  · rw [hn, Value.literal_least] at hbare
    obtain ⟨span, span', rfl⟩ := Expr.eq_negated_of_bare hbare
    obtain ⟨loaded, hload, hvalue⟩ := Session.value_of_failing hroot rfl
      (fun _ _ _ => fails_negated Value.ofNumber_leastDigits) hfree hsteps hlevels
    exact ⟨loaded, hload, fun h => absurd hn h, fun _ => ⟨span', hvalue⟩⟩
  · have hconstant : root.constant? = some (.bigint n) := by
      rw [Expr.constant?_congr hbare]
      exact Value.constant?_bigint fun hval => hn (Int128.eq_of_val hval)
    obtain ⟨loaded, v, after, hload, hvalue, hv⟩ := Session.value_of_constant name hroot hconstant
      (by simp [Value.paths]) (by simpa [Value.paths] using hfree) hsteps hbytes hlevels
    refine ⟨loaded, hload, fun _ => ?_, fun h => absurd h hn⟩
    rw [hvalue, Value.eq_bigint_of_bare hv]

/-- Minus twelve comes back. -/
theorem results_read_back_for_minus_twelve :
    let s := Session.new ⟨.memory [], Sha256.digest, 1, 50⟩ ⟨1, 1⟩
    let n : Int128 := ⟨-12, by decide, by decide⟩
    (Value.bigint n).text = "-12n" ∧
      ∃ loaded, s.loadSource "v" (Utf8.encode "-12n") = (.ok (), loaded) ∧
      (loaded.value "v").1 = .ok (.bigint n) := by
  intro s n
  have htext : (Value.bigint n).text = "-12n" := by decide +kernel
  have hparse : (Value.bigint n).text.length ≤ s.host.maxParseDepth := by
    rw [htext]
    decide
  have hfree : s.store.contains "v" = false := rfl
  obtain ⟨-, loaded, hload, hvalue, -⟩ :=
    results_read_back hfree (by decide) (by decide) (by decide) hparse
  rw [htext] at hload
  exact ⟨htext, loaded, hload, hvalue (by decide)⟩

/-- The least number is a difference, and its text has no value. -/
theorem least_result_is_lost :
    let s := Session.new { storage := .memory [] } {}
    Value.binary ⟨"a", 0⟩ .sub (.bigint ⟨1 - 2 ^ 127, by decide, by decide⟩)
        (.bigint ⟨1, by decide, by decide⟩) = .ok (.bigint Value.least) ∧
      (Value.bigint Value.least).text = "-170141183460469231731687303715884105728n" ∧
      ∃ loaded, s.loadSource "b" (Utf8.encode "-170141183460469231731687303715884105728n") =
        (.ok (), loaded) ∧
        (loaded.value "b").1 =
          .error
          (.runtime ⟨.invalidNumber "170141183460469231731687303715884105728n", some ⟨1, 41⟩⟩) := by
  intro s
  have hroot :
      parse s.host.maxParseDepth (Utf8.encode "-170141183460469231731687303715884105728n") =
      .ok (.unary ⟨0, 41⟩ .neg (.number ⟨1, 41⟩ Value.leastDigits)) := by decide +kernel
  refine ⟨by rfl, by decide +kernel, ?_⟩
  exact Session.value_of_failing hroot rfl
    (fun _ _ _ => fails_negated Value.ofNumber_leastDigits) rfl (by decide) (by decide)

end LazyConfig
