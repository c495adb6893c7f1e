-- Texts unescaped piece by piece. An escape takes characters of its own and looks at no others, but
-- for a carriage return, which takes a line feed with it. So the pieces of a text stand for the
-- pieces of what the text stands for, unless it is cut inside an escape.
-- Main statement: what two texts one after the other stand for, and which error is told.
import LazyConfig.Proofs.Text.Escape
import LazyConfig.Proofs.Text.Utf8

namespace LazyConfig

/-- The text ends before the escape does: right after the backslash or among its digits. -/
def EscapeError.isCutOff : EscapeError → Bool
  | .unknown _ sequence => sequence = "\\"
  | .incomplete _ _ _ => true
  | .notHex _ _ => false
  | .notScalar _ _ => false

namespace Escape

open Utf8 (width)

/-- The byte offsets of the backslashes that start an escape, up to the first escape that is
wrong. -/
def starts (position : Nat) : List Char → List Nat
  | [] => []
  | c :: cs =>
    if c = '\\' then
      position :: match read position cs with
        | .error _ => []
        | .ok (_, taken) => starts (position + 1 + taken) (cs.drop taken)
    else starts (position + c.utf8Size) cs
  termination_by cs => cs.length
  decreasing_by all_goals simp only [List.length_drop, List.length_cons]; omega

/-- The last escape is a backslash and a carriage return that the text ends with. -/
def EndsInReturn (position : Nat) (cs : List Char) : Prop :=
  ∃ before, cs = before ++ ['\\', '\r'] ∧
    (starts position cs).getLast? = some (position + width before)

variable {position count missing value got taken : Nat} {opening cs : List Char} {e : EscapeError}
  {found : Option Char}

/-! ## What an escape takes -/

/-- The characters are ASCII. -/
def Ascii (cs : List Char) : Prop := ∀ c ∈ cs, c.utf8Size = 1

theorem Ascii.width_eq (h : Ascii cs) : width cs = cs.length := by
  induction cs with
  | nil => rfl
  | cons c cs ih =>
    obtain ⟨hc, hcs⟩ := List.forall_mem_cons.mp h
    rw [Utf8.width_cons, hc, ih hcs, List.length_cons, Nat.add_comm]

/-- The backslash and the characters after it take one byte each. -/
theorem Ascii.width_escape {body : List Char} (h : Ascii body) (rest : List Char) :
    width ('\\' :: (body ++ rest)) = 1 + body.length + width rest := by
  have hsize : '\\'.utf8Size = 1 := rfl
  rw [Utf8.width_cons, Utf8.width_append, h.width_eq, hsize]
  omega

theorem utf8Size_of_hexValue? {c : Char} {d : Nat} (h : hexValue? c = some d) : c.utf8Size = 1 := by
  rw [Char.utf8Size_eq_one_iff]
  unfold hexValue? at h
  split at h
  · next hc => exact UInt32.le_trans hc.2 (by decide)
  split at h
  · next hc => exact UInt32.le_trans hc.2 (by decide)
  split at h
  · next hc => exact UInt32.le_trans hc.2 (by decide)
  · cases h

theorem utf8Size_of_single? {c d : Char} (h : single? c = some d) : c.utf8Size = 1 := by
  unfold single? at h
  split at h
  all_goals first
    | rfl
    | cases h

theorem bind_eq_ok {ε α β : Type} {x : Except ε α} {f : α → Except ε β} {b : β} :
    (x >>= f) = .ok b ↔ ∃ a, x = .ok a ∧ f a = .ok b := by
  cases x with
  | error e => exact iff_of_false nofun nofun
  | ok a =>
    constructor
    · exact fun h => ⟨a, rfl, h⟩
    · rintro ⟨a', heq, h⟩
      cases heq
      exact h

theorem bind_eq_error {ε α β : Type} {x : Except ε α} {f : α → Except ε β} {e : ε} :
    (x >>= f) = .error e ↔ x = .error e ∨ ∃ a, x = .ok a ∧ f a = .error e := by
  cases x with
  | error e' =>
    constructor
    · intro h
      cases h
      exact .inl rfl
    · rintro (heq | ⟨a, heq, -⟩)
      · cases heq
        rfl
      · cases heq
  | ok a =>
    constructor
    · exact fun h => .inr ⟨a, rfl, h⟩
    · rintro (heq | ⟨a', heq, h⟩)
      · cases heq
      · cases heq
        exact h

/-- Digits are read from the characters that they are. -/
theorem readDigits_ok {n : Nat} (h : readDigits position count opening missing value cs = .ok n) :
    ∃ body rest, cs = body ++ rest ∧ body.length = missing ∧ Ascii body ∧
      ∀ more, readDigits position count opening missing value (body ++ more) = .ok n := by
  fun_induction readDigits position count opening missing value cs with
  | case1 value cs =>
    exact ⟨[], cs, rfl, rfl, List.forall_mem_nil _, fun more => by
      rw [List.nil_append, readDigits, h]⟩
  | case2 => cases h
  | case3 missing value c cs d hd ih =>
    obtain ⟨body, rest, rfl, hlength, hascii, hread⟩ := ih h
    refine ⟨c :: body, rest, rfl, by rw [List.length_cons, hlength],
      List.forall_mem_cons.mpr ⟨utf8Size_of_hexValue? hd, hascii⟩, fun more => ?_⟩
    rw [List.cons_append, readDigits, hd]
    exact hread more
  | case4 => cases h

theorem readBraced_ok {n digits : Nat} (h : readBraced position got value cs = .ok (n, digits)) :
    ∃ body rest, cs = body ++ rest ∧ body.length + got = digits + 1 ∧ Ascii body ∧
      ∀ more, readBraced position got value (body ++ more) = .ok (n, digits) := by
  induction cs generalizing got value with
  | nil => cases h
  | cons c cs ih =>
    rw [readBraced] at h
    split at h
    · next hclose =>
      cases h
      refine ⟨[c], cs, rfl, Nat.add_comm 1 _, List.forall_mem_singleton.mpr (hclose.1 ▸ rfl),
        fun more => ?_⟩
      rw [List.singleton_append, readBraced, if_pos hclose]
    · next hopen =>
      split at h
      · next d hd =>
        split at h
        · next hgot =>
          obtain ⟨body, rest, rfl, hlength, hascii, hread⟩ := ih h
          refine ⟨c :: body, rest, rfl, by rw [List.length_cons]; omega,
            List.forall_mem_cons.mpr ⟨utf8Size_of_hexValue? hd, hascii⟩, fun more => ?_⟩
          rw [List.cons_append, readBraced, if_neg hopen, hd]
          simp only [if_pos hgot]
          exact hread more
        · cases h
      · cases h

theorem read_hex (cs : List Char) : read position ('x' :: cs) =
    readDigits position 2 ['\\', 'x'] 2 0 cs >>= fun value => named position value >>= fun c =>
      .ok (some c, 3) := by
  rw [read]
  rfl

theorem read_braced (cs : List Char) : read position ('u' :: '\x7b' :: cs) =
    readBraced position 0 0 cs >>= fun a => named position a.1 >>= fun c =>
    .ok (some c, a.2 + 3) := by
  rw [read]
  rfl

theorem read_digits (h : cs.head? ≠ some '\x7b') : read position ('u' :: cs) =
    readDigits position 4 ['\\', 'u'] 4 0 cs >>= fun value => named position value >>= fun c =>
      .ok (some c, 5) := by
  rw [read, if_neg h]
  rfl

/-- The character with the number that a reader reads. -/
theorem number_ok {α β : Type} {reader : List Char → Except EscapeError α} (value : α → Nat)
    {done : α → Char → β} {b : β}
    (h : (reader cs >>= fun a => named position (value a) >>= fun c => .ok (done a c)) = .ok b) :
    ∃ a c, reader cs = .ok a ∧ done a c = b ∧ ∀ more, reader more = .ok a →
      (reader more >>= fun a => named position (value a) >>= fun c => .ok (done a c)) = .ok b := by
  obtain ⟨a, ha, h⟩ := bind_eq_ok.mp h
  obtain ⟨c, hc, h⟩ := bind_eq_ok.mp h
  refine ⟨a, c, ha, Except.ok.inj h, fun more hmore => ?_⟩
  exact bind_eq_ok.mpr ⟨a, hmore, bind_eq_ok.mpr ⟨c, hc, h⟩⟩

theorem read_hex_ok (h : read position ('x' :: cs) = .ok (found, taken)) :
    ∃ body rest, cs = body ++ rest ∧ body.length + 1 = taken ∧ Ascii body ∧
      ∀ more, read position ('x' :: (body ++ more)) = .ok (found, taken) := by
  rw [read_hex] at h
  obtain ⟨value, c, hvalue, hdone, hsame⟩ := number_ok id h
  obtain ⟨rfl, rfl⟩ := Prod.mk.inj hdone
  obtain ⟨body, rest, rfl, hlength, hascii, hread⟩ := readDigits_ok hvalue
  refine ⟨body, rest, rfl, congrArg (· + 1) hlength, hascii, fun more => ?_⟩
  rw [read_hex]
  exact hsame _ (hread more)

theorem read_unicode_ok (h : read position ('u' :: cs) = .ok (found, taken)) :
    ∃ body rest, cs = body ++ rest ∧ body.length + 1 = taken ∧ Ascii body ∧
      ∀ more, read position ('u' :: (body ++ more)) = .ok (found, taken) := by
  by_cases hbrace : cs.head? = some '\x7b'
  · obtain ⟨cs, rfl⟩ := List.head?_eq_some_iff.mp hbrace
    rw [read_braced] at h
    obtain ⟨⟨value, digits⟩, c, hvalue, hdone, hsame⟩ := number_ok Prod.fst h
    obtain ⟨rfl, rfl⟩ := Prod.mk.inj hdone
    obtain ⟨body, rest, rfl, hlength, hascii, hread⟩ := readBraced_ok hvalue
    refine ⟨'\x7b' :: body, rest, rfl, by simpa using hlength,
      List.forall_mem_cons.mpr ⟨rfl, hascii⟩, fun more => ?_⟩
    rw [List.cons_append, read_braced]
    exact hsame _ (hread more)
  · rw [read_digits hbrace] at h
    obtain ⟨value, c, hvalue, hdone, hsame⟩ := number_ok id h
    obtain ⟨rfl, rfl⟩ := Prod.mk.inj hdone
    obtain ⟨body, rest, rfl, hlength, hascii, hread⟩ := readDigits_ok hvalue
    refine ⟨body, rest, rfl, congrArg (· + 1) hlength, hascii, fun more => ?_⟩
    have hhead : (body ++ more).head? ≠ some '\x7b' := by
      cases body with
      | nil => cases hlength
      | cons d body => simpa using hbrace
    rw [read_digits hhead]
    exact hsame _ (hread more)

/-- An escape is read from characters that are ASCII, and is the same whatever follows them, but for
a carriage return that a line feed would follow. -/
theorem read_ok (h : read position cs = .ok (found, taken)) :
    ∃ body rest, cs = body ++ rest ∧ body.length = taken ∧ Ascii body ∧
      ∀ more, (body = ['\r'] → more.head? ≠ some '\n') →
        read position (body ++ more) = .ok (found, taken) := by
  cases cs with
  | nil => cases h
  | cons c cs =>
    by_cases hx : c = 'x'
    · subst hx
      obtain ⟨body, rest, rfl, hlength, hascii, hread⟩ := read_hex_ok h
      exact ⟨'x' :: body, rest, rfl, hlength, List.forall_mem_cons.mpr ⟨rfl, hascii⟩,
        fun more _ => hread more⟩
    by_cases hu : c = 'u'
    · subst hu
      obtain ⟨body, rest, rfl, hlength, hascii, hread⟩ := read_unicode_ok h
      exact ⟨'u' :: body, rest, rfl, hlength, List.forall_mem_cons.mpr ⟨rfl, hascii⟩,
        fun more _ => hread more⟩
    rw [read] at h
    split at h
    · next hc =>
      cases h
      subst hc
      exact ⟨['\n'], cs, rfl, rfl, List.forall_mem_singleton.mpr rfl, fun more _ => rfl⟩
    split at h
    · next hc =>
      cases h
      subst hc
      split
      · next hfeed =>
        obtain ⟨rest, rfl⟩ := List.head?_eq_some_iff.mp hfeed
        exact ⟨['\r', '\n'], rest, rfl, rfl, by simp [Ascii]; decide, fun more _ => rfl⟩
      · refine ⟨['\r'], cs, rfl, rfl, List.forall_mem_singleton.mpr rfl, fun more hmore => ?_⟩
        show Except.ok (none, if more.head? = some '\n' then 2 else 1) = _
        rw [if_neg (hmore rfl)]
    next hn hr =>
      split at h
      · next d hd =>
        cases h
        refine ⟨[c], cs, rfl, rfl, List.forall_mem_singleton.mpr (utf8Size_of_single? hd),
          fun more _ => ?_⟩
        rw [List.singleton_append, read, if_neg hn, if_neg hr, if_neg hx, if_neg hu, hd]
      · cases h

/-! ## What is wrong with an escape -/

/-- The error is at the position, and stays the same whatever follows the text, unless the text is
cut off inside the escape: then it can go on so that there is another error, which stays. -/
structure Told {α : Type} (reader : List Char → Except EscapeError α) (position : Nat)
    (cs : List Char) (e : EscapeError) : Prop where
  position_eq : e.position = position
  stays : e.isCutOff = false → ∀ more, reader (cs ++ more) = .error e
  cut : e.isCutOff = true → ∃ more e', e'.isCutOff = false ∧ reader (cs ++ more) = .error e'

section

variable {α β : Type} {reader : List Char → Except EscapeError α}

theorem told_of_stays (hposition : e.position = position) (hwhole : e.isCutOff = false)
    (h : ∀ more, reader (cs ++ more) = .error e) : Told reader position cs e :=
  ⟨hposition, fun _ => h, fun hcut => absurd hcut (by simp [hwhole])⟩

/-- A reader that goes on is told of the same error. -/
theorem Told.bind (h : Told reader position cs e) (f : α → Except EscapeError β) :
    Told (fun cs => reader cs >>= f) position cs e where
  position_eq := h.position_eq
  stays hwhole more := by rw [h.stays hwhole more]; rfl
  cut hcut := by
    obtain ⟨more, e', he', hread⟩ := h.cut hcut
    exact ⟨more, e', he', by rw [hread]; rfl⟩

theorem told_cons {c : Char} :
    Told reader position (c :: cs) e ↔ Told (fun cs => reader (c :: cs)) position cs e :=
  ⟨fun h => ⟨h.position_eq, h.stays, h.cut⟩, fun h => ⟨h.position_eq, h.stays, h.cut⟩⟩

end

/-- There is no digit `g`, which shows where digits are missing. -/
theorem told_readDigits (h : readDigits position count opening missing value cs = .error e) :
    Told (readDigits position count opening missing value) position cs e := by
  fun_induction readDigits position count opening missing value cs with
  | case1 => cases h
  | case2 missing value =>
    cases h
    exact ⟨rfl, nofun, fun _ =>
      ⟨['g'], .notHex position (String.ofList (opening ++ ['g'])), rfl, rfl⟩⟩
  | case3 missing value c cs d hd ih =>
    have hread : ∀ cs, readDigits position count opening (missing + 1) value (c :: cs) =
        readDigits position count opening missing (value * 16 + d) cs :=
          fun cs => by rw [readDigits, hd]
    obtain ⟨hposition, hstays, hcut⟩ := ih h
    exact ⟨hposition, fun hwhole more => (hread _).trans (hstays hwhole more), fun he => by
      simpa only [List.cons_append, hread] using hcut he⟩
  | case4 missing value c cs hd =>
    cases h
    exact told_of_stays rfl rfl fun more => by rw [List.cons_append, readDigits, hd]

theorem told_readBraced (h : readBraced position got value cs = .error e) :
    Told (readBraced position got value) position cs e := by
  induction cs generalizing got value with
  | nil =>
    cases h
    exact ⟨rfl, nofun, fun _ =>
      ⟨['g'], .notHex position (String.ofList ['\\', 'u', '\x7b', 'g']), rfl, rfl⟩⟩
  | cons c cs ih =>
    rw [readBraced] at h
    split at h
    · cases h
    · next hopen =>
      split at h
      · next d hd =>
        split at h
        · next hgot =>
          have hread : ∀ cs, readBraced position got value (c :: cs) =
              readBraced position (got + 1) (value * 16 + d) cs := fun cs => by
            rw [readBraced, if_neg hopen, hd]
            exact if_pos hgot
          obtain ⟨hposition, hstays, hcut⟩ := ih h
          exact ⟨hposition, fun hwhole more => (hread _).trans (hstays hwhole more), fun he => by
            simpa only [List.cons_append, hread] using hcut he⟩
        · next hgot =>
          cases h
          refine told_of_stays rfl rfl fun more => ?_
          rw [List.cons_append, readBraced, if_neg hopen, hd]
          exact if_neg hgot
      · next hd =>
        cases h
        exact told_of_stays rfl rfl fun more => by
          rw [List.cons_append, readBraced, if_neg hopen, hd]

/-- The character with the number that a reader reads. What is wrong with the number is told of
whatever follows it. -/
theorem told_number {α β : Type} {reader : List Char → Except EscapeError α} (value : α → Nat)
    {done : α → Char → β} (herror : reader cs = .error e → Told reader position cs e)
    (hok : ∀ a, reader cs = .ok a → ∀ more, reader (cs ++ more) = .ok a)
    (h : (reader cs >>= fun a => named position (value a) >>= fun c => .ok (done a c)) = .error e) :
    Told (fun cs => reader cs >>= fun a => named position (value a) >>= fun c => .ok (done a c))
      position cs e := by
  rcases bind_eq_error.mp h with hread | ⟨a, hread, h⟩
  · exact (herror hread).bind _
  · rcases bind_eq_error.mp h with hnamed | ⟨c, -, h⟩
    · have hvalue : e = .notScalar position (value a) := by
        unfold named at hnamed
        split at hnamed
        · cases hnamed
        · exact (Except.error.inj hnamed).symm
      subst hvalue
      exact told_of_stays rfl rfl fun more => by
        simp only [bind, Except.bind, hok a hread more, hnamed]
    · cases h

theorem told_hex (h : read position ('x' :: cs) = .error e) :
    Told (fun cs => read position ('x' :: cs)) position cs e := by
  rw [read_hex] at h
  simp only [read_hex]
  refine told_number id told_readDigits (fun value hvalue more => ?_) h
  obtain ⟨body, rest, rfl, -, -, hread⟩ := readDigits_ok hvalue
  rw [List.append_assoc, hread]

theorem told_unicode (h : read position ('u' :: cs) = .error e) :
    Told (fun cs => read position ('u' :: cs)) position cs e := by
  cases cs with
  | nil =>
    cases h
    exact ⟨rfl, nofun, fun _ =>
      ⟨['g'], .notHex position (String.ofList ['\\', 'u', 'g']), rfl, rfl⟩⟩
  | cons d cs =>
    by_cases hbrace : d = '\x7b'
    · subst hbrace
      rw [read_braced] at h
      simp only [told_cons, read_braced]
      refine told_number Prod.fst told_readBraced (fun a ha more => ?_) h
      obtain ⟨body, rest, rfl, -, -, hread⟩ := readBraced_ok ha
      rw [List.append_assoc, hread]
    · have hdigits : ∀ cs, read position ('u' :: d :: cs) = _ := fun cs =>
        read_digits (by simpa using hbrace)
      rw [hdigits] at h
      simp only [told_cons, hdigits]
      refine told_cons.mp (told_number id told_readDigits (fun value hvalue more => ?_) h)
      obtain ⟨body, rest, hbody, -, -, hread⟩ := readDigits_ok hvalue
      rw [hbody, List.append_assoc, hread]

/-- What is wrong with an escape is told at the position, whatever follows the escape. -/
theorem told_read (h : read position cs = .error e) : Told (read position) position cs e := by
  cases cs with
  | nil =>
    cases h
    exact ⟨rfl, nofun, fun _ => ⟨['g'], .unknown position (String.ofList ['\\', 'g']), rfl, rfl⟩⟩
  | cons c cs =>
    by_cases hx : c = 'x'
    · subst hx
      exact told_cons.mpr (told_hex h)
    by_cases hu : c = 'u'
    · subst hu
      exact told_cons.mpr (told_unicode h)
    rw [read] at h
    split at h
    · cases h
    split at h
    · cases h
    next hn hr =>
      split at h
      · cases h
      · next hc =>
        cases h
        refine told_of_stays rfl (decide_eq_false fun heq => ?_) fun more => ?_
        · have hlength := congrArg String.length heq
          simp at hlength
        · rw [List.cons_append, read, if_neg hn, if_neg hr, if_neg hx, if_neg hu, hc]

/-! ## Positions -/

/-- Only positions change with the position of a text. -/
theorem readDigits_shift (n : Nat) : readDigits (position + n) count opening missing value cs =
    (readDigits position count opening missing value cs).mapError (·.shift n) := by
  fun_induction readDigits position count opening missing value cs with
  | case1 => simp [readDigits, Except.mapError]
  | case2 => rfl
  | case3 missing value c cs d hd ih =>
    rw [readDigits, hd]
    exact ih
  | case4 missing value c cs hd => rw [readDigits, hd]; rfl

theorem readBraced_shift (n : Nat) : readBraced (position + n) got value cs =
    (readBraced position got value cs).mapError (·.shift n) := by
  induction cs generalizing got value with
  | nil => rfl
  | cons c cs ih =>
    rw [readBraced, readBraced]
    split
    · rfl
    · split
      · split
        · exact ih
        · rfl
      · rfl

theorem named_shift (n : Nat) : named (position + n) value =
    (named position value).mapError (·.shift n) := by
  unfold named
  split <;> rfl

theorem bind_mapError {α β : Type} (x : Except EscapeError α)
    (f : α → Except EscapeError β) (n : Nat) :
    (x >>= f).mapError (·.shift n) =
      x.mapError (·.shift n) >>= fun a => (f a).mapError (·.shift n) := by
  cases x <;> rfl

theorem read_shift (n : Nat) :
    read (position + n) cs = (read position cs).mapError (·.shift n) := by
  cases cs with
  | nil => rfl
  | cons c cs =>
    rw [read, read]
    simp only [apply_ite (Except.mapError _), bind_mapError, readDigits_shift,
      readBraced_shift, named_shift]
    split
    · rfl
    split
    · rfl
    split
    · rfl
    split
    · rfl
    · split <;> rfl

theorem map_mapError {α β : Type} (x : Except EscapeError α) (f : α → β) (n : Nat) :
    (x.map f).mapError (·.shift n) = (x.mapError (·.shift n)).map f := by
  cases x <;> rfl

theorem unescapeFrom_shift (n : Nat) :
    unescapeFrom (position + n) cs = (unescapeFrom position cs).mapError (·.shift n) := by
  fun_induction unescapeFrom position cs with
  | case1 => simp [unescapeFrom, Except.mapError]
  | case2 position cs e hread =>
    rw [unescapeFrom, if_pos rfl, read_shift, hread]
    rfl
  | case3 position cs found taken hread ih =>
    have hnext : position + n + 1 + taken = position + 1 + taken + n := by omega
    rw [unescapeFrom, if_pos rfl, read_shift, hread, map_mapError, ← ih, ← hnext]
    rfl
  | case4 position c cs hc ih =>
    rw [unescapeFrom_cons hc, map_mapError, ← ih, Nat.add_right_comm]

/-! ## One text after another -/

theorem starts_escape {body rest : List Char}
    (h : read position (body ++ rest) = .ok (found, body.length)) :
    starts position ('\\' :: (body ++ rest)) =
    position :: starts (position + 1 + body.length) rest := by
  rw [starts, if_pos rfl, h]
  simp only [List.drop_left]

theorem starts_cons {c : Char} (h : c ≠ '\\') (cs : List Char) :
    starts position (c :: cs) = starts (position + c.utf8Size) cs := by
  rw [starts, if_neg h]

/-- A text that ends in an escape that takes a line feed ends so after other characters as well. -/
theorem EndsInReturn.cons {c : Char} (h : EndsInReturn (position + c.utf8Size) cs) (hc : c ≠ '\\') :
    EndsInReturn position (c :: cs) := by
  obtain ⟨before, rfl, hlast⟩ := h
  refine ⟨c :: before, rfl, ?_⟩
  rw [starts_cons hc, hlast, Utf8.width_cons, Nat.add_assoc]

theorem EndsInReturn.escape {body rest : List Char}
    (h : EndsInReturn (position + 1 + body.length) rest)
    (hread : read position (body ++ rest) = .ok (found, body.length)) (hascii : Ascii body) :
    EndsInReturn position ('\\' :: (body ++ rest)) := by
  obtain ⟨before, rfl, hlast⟩ := h
  refine ⟨'\\' :: (body ++ before), by simp, ?_⟩
  rw [starts_escape hread, List.getLast?_cons, hlast, Option.getD_some, hascii.width_escape,
    Option.some.injEq]
  omega

theorem endsInReturn_self : EndsInReturn position ['\\', '\r'] := by
  have hread : read position (['\r'] ++ []) = .ok (none, ['\r'].length) := rfl
  refine ⟨[], rfl, ?_⟩
  rw [show ['\\', '\r'] = '\\' :: (['\r'] ++ []) from rfl, starts_escape hread, starts]
  rfl

/-- A carriage return that is taken alone has no line feed after it. -/
theorem head?_ne_of_return {rest : List Char}
    (h : read position ('\r' :: rest) = .ok (found, 1)) : rest.head? ≠ some '\n' := by
  intro hfeed
  have hpair : read position ('\r' :: rest) = .ok (none, 2) := by
    show Except.ok (none, if rest.head? = some '\n' then 2 else 1) = _
    rw [if_pos hfeed]
  rw [hpair] at h
  cases h

theorem map_eq_ok {ε α β : Type} {x : Except ε α} {f : α → β} {b : β} :
    x.map f = .ok b ↔ ∃ a, x = .ok a ∧ f a = b := by
  cases x with
  | error e => exact iff_of_false nofun nofun
  | ok a => simp [Except.map]

/-- What follows a text that can be read is read on its own, at its position, unless it starts with
a line feed that the last escape of the text takes. -/
theorem unescapeFrom_append {a b x : List Char} (h : unescapeFrom position a = .ok x)
    (hreturn : EndsInReturn position a → b.head? ≠ some '\n') :
    unescapeFrom position (a ++ b) = (unescapeFrom (position + width a) b).map (x ++ ·) := by
  fun_induction unescapeFrom position a generalizing x with
  | case1 position =>
    cases h
    show unescapeFrom position b = (unescapeFrom position b).map ([] ++ ·)
    cases unescapeFrom position b <;> rfl
  | case2 => cases h
  | case3 position cs found taken hread ih =>
    obtain ⟨y, hy, rfl⟩ := map_eq_ok.mp h
    obtain ⟨body, rest, rfl, rfl, hascii, hmore⟩ := read_ok hread
    have hcond : body = ['\r'] → (rest ++ b).head? ≠ some '\n' := by
      rintro rfl
      cases rest with
      | nil => exact hreturn endsInReturn_self
      | cons d rest => simpa using head?_ne_of_return hread
    rw [List.drop_left] at hy ih
    have hrest := ih hy fun hends => hreturn (hends.escape hread hascii)
    have hposition : position + 1 + body.length + width rest =
        position + width ('\\' :: (body ++ rest)) := by
      rw [hascii.width_escape]
      omega
    rw [List.cons_append, List.append_assoc, unescapeFrom_escape (hmore _ hcond), hrest, hposition]
    cases unescapeFrom (position + width ('\\' :: (body ++ rest))) b <;> simp [Except.map]
  | case4 position c cs hc ih =>
    obtain ⟨y, hy, rfl⟩ := map_eq_ok.mp h
    have hrest := ih hy fun hends => hreturn (hends.cons hc)
    rw [List.cons_append, unescapeFrom_cons hc, hrest, Utf8.width_cons, ← Nat.add_assoc]
    cases unescapeFrom (position + c.utf8Size + width cs) b <;> rfl

/-! ## The first error -/

theorem map_eq_error {ε α β : Type} {x : Except ε α} {f : α → β} {e : ε} :
    x.map f = .error e ↔ x = .error e := by
  cases x <;> simp [Except.map]

/-- What is wrong with a text is wrong with an escape in it, and all before it can be read. -/
theorem unescapeFrom_error (h : unescapeFrom position cs = .error e) :
    ∃ before rest x, cs = before ++ '\\' :: rest ∧ unescapeFrom position before = .ok x ∧
      read (position + width before) rest = .error e := by
  fun_induction unescapeFrom position cs with
  | case1 => cases h
  | case2 position cs e' hread =>
    cases h
    exact ⟨[], cs, [], rfl, by rw [unescapeFrom], hread⟩
  | case3 position cs found taken hread ih =>
    obtain ⟨before, rest, x, hrest, hx, herror⟩ := ih (map_eq_error.mp h)
    obtain ⟨body, others, rfl, rfl, hascii, hmore⟩ := read_ok hread
    rw [List.drop_left] at hrest
    subst hrest
    have hcond : body = ['\r'] → before.head? ≠ some '\n' := by
      rintro rfl
      cases before with
      | nil => simp
      | cons d before => simpa using head?_ne_of_return hread
    refine ⟨'\\' :: (body ++ before), rest, found.toList ++ x, by simp, ?_, ?_⟩
    · rw [unescapeFrom_escape (hmore _ hcond), hx]
      rfl
    · have hposition : position + width ('\\' :: (body ++ before)) =
          position + 1 + body.length + width before := by
        rw [hascii.width_escape]
        omega
      rw [hposition]
      exact herror
  | case4 position c cs hc ih =>
    obtain ⟨before, rest, x, rfl, hx, herror⟩ := ih (map_eq_error.mp h)
    refine ⟨c :: before, rest, c :: x, rfl, ?_, ?_⟩
    · rw [unescapeFrom_cons hc, hx]
      rfl
    · rw [Utf8.width_cons, ← Nat.add_assoc]
      exact herror

/-- An escape that cannot be read is what is wrong with the text. -/
theorem unescapeFrom_wrong {before rest x : List Char} (h : unescapeFrom position before = .ok x)
    (herror : read (position + width before) rest = .error e) :
    unescapeFrom position (before ++ '\\' :: rest) = .error e := by
  rw [unescapeFrom_append h fun _ => by simp, unescapeFrom, if_pos rfl, herror]
  rfl

/-- The error of a text stays whatever follows, unless the text is cut off inside an escape. -/
theorem told_unescapeFrom (h : unescapeFrom position cs = .error e) :
    (e.isCutOff = false → ∀ more, unescapeFrom position (cs ++ more) = .error e) ∧
      (e.isCutOff = true → ∃ more e', e'.isCutOff = false ∧
        unescapeFrom position (cs ++ more) = .error e') := by
  obtain ⟨before, rest, x, rfl, hx, herror⟩ := unescapeFrom_error h
  have htold := told_read herror
  refine ⟨fun hwhole more => ?_, fun hcut => ?_⟩
  · rw [List.append_assoc]
    exact unescapeFrom_wrong hx (htold.stays hwhole more)
  · obtain ⟨more, e', he', hread⟩ := htold.cut hcut
    refine ⟨more, e', he', ?_⟩
    rw [List.append_assoc]
    exact unescapeFrom_wrong hx hread

/-! ## Texts -/

theorem unescape_eq_ok {s x : String} :
    unescape s = .ok x ↔ unescapeFrom 0 s.toList = .ok x.toList := by
  rw [unescape, map_eq_ok]
  constructor
  · rintro ⟨cs, hcs, rfl⟩
    rwa [String.toList_ofList]
  · exact fun h => ⟨_, h, String.ofList_toList⟩

theorem unescape_eq_error {s : String} :
    unescape s = .error e ↔ unescapeFrom 0 s.toList = .error e :=
  map_eq_error

/-- Texts are unescaped piece by piece. If a text can be read, what follows it is read as it is on
its own, with the positions of errors moved by the bytes before it; but a line feed right after a
last escape of a backslash and a carriage return belongs to that escape. If a text cannot be read,
the error is that of its first wrong escape, at the offset of its backslash, with nothing wrong
before it. This is also the error with anything after it, unless the text is cut off inside the
escape. A text without backslashes stands for itself. -/
theorem unescaping_goes_piece_by_piece (a b : String) :
    (∀ x, unescape a = .ok x → ¬ (EndsInReturn 0 a.toList ∧ b.toList.head? = some '\n') →
      (∀ y, unescape b = .ok y → unescape (a ++ b) = .ok (x ++ y)) ∧
      ∀ e, unescape b = .error e → unescape (a ++ b) = .error (e.shift (width a.toList))) ∧
    (∀ e, unescape a = .error e →
      (e.isCutOff = false → unescape (a ++ b) = .error e) ∧
      (e.isCutOff = true → ∃ more, unescape (a ++ more) ≠ .error e) ∧
      ∃ before rest x, a = before ++ "\\" ++ rest ∧ unescape before = .ok x ∧
        e.position = width before.toList ∧ read e.position rest.toList = .error e) ∧
    ('\\' ∉ a.toList → unescape a = .ok a) := by
  refine ⟨fun x hx hreturn => ?_, fun e he => ⟨fun hwhole => ?_, fun hcut => ?_, ?_⟩,
    fun hplain => ?_⟩
  · have happend := unescapeFrom_append (unescape_eq_ok.mp hx) (b := b.toList)
      fun hends hfeed => hreturn ⟨hends, hfeed⟩
    rw [unescapeFrom_shift, ← String.toList_append] at happend
    refine ⟨fun y hy => ?_, fun e he => ?_⟩
    · rw [unescape_eq_ok.mp hy] at happend
      rw [unescape_eq_ok, happend, String.toList_append]
      rfl
    · rw [unescape_eq_error.mp he] at happend
      rw [unescape_eq_error, happend]
      rfl
  · rw [unescape_eq_error, String.toList_append]
    exact (told_unescapeFrom (unescape_eq_error.mp he)).1 hwhole b.toList
  · obtain ⟨more, e', he', hmore⟩ := (told_unescapeFrom (unescape_eq_error.mp he)).2 hcut
    refine ⟨String.ofList more, fun hsame => ?_⟩
    rw [unescape_eq_error, String.toList_append, String.toList_ofList, hmore] at hsame
    cases hsame
    rw [hcut] at he'
    cases he'
  · obtain ⟨before, rest, x, hsplit, hx, herror⟩ := unescapeFrom_error (unescape_eq_error.mp he)
    have hposition := (told_read herror).position_eq
    rw [Nat.zero_add] at hposition herror
    refine ⟨String.ofList before, String.ofList rest, String.ofList x, ?_, ?_, ?_, ?_⟩
    · rw [← String.toList_inj, hsplit]
      simp
    · rwa [unescape_eq_ok, String.toList_ofList, String.toList_ofList]
    · rwa [String.toList_ofList]
    · rwa [String.toList_ofList, hposition]
  · rw [unescape_eq_ok]
    exact unescapeFrom_plain 0 a.toList fun c hc heq => hplain (heq ▸ hc)

/-- The line feed goes with the carriage return before it, and not with what follows. -/
example : unescape "\\\r" = .ok "" ∧ unescape "\nx" = .ok "\nx" ∧ unescape "\\\r\nx" = .ok "x" := by
  refine ⟨?_, ?_, ?_⟩ <;> decide +kernel

end Escape

end LazyConfig
