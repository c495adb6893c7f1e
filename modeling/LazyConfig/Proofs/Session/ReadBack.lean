-- Values that are printed and read back. The text of a value without numbers and functions is a
-- literal, and a literal evaluates to what it says, so the value comes back, identities aside.
-- Main statement: a list of the text of a value is loaded, and holds an equal value.
import LazyConfig.Proofs.Codec.Hex
import LazyConfig.Proofs.Session.Constants
import LazyConfig.Proofs.Source.Literals
import LazyConfig.Value.Printer

namespace LazyConfig

open Lexer

/-! ## Data -/

namespace Value

mutual

/-- The value is plain and no number, or made of such values. The least whole number is left out, as
it has no literal, and an object has no key twice. -/
def IsData : Value → Prop
  | null | boolean _ | string _ | blob _ => True
  | bigint n => n.val ≠ -0x80000000000000000000000000000000
  | array _ items => AreData items
  | object _ entries => (Object.keys entries).Nodup ∧ HoldData entries
  | undefined | number _ | function _ _ => False

def AreData : List Value → Prop
  | [] => True
  | v :: vs => v.IsData ∧ AreData vs

def HoldData : List (String × Value) → Prop
  | [] => True
  | (_, v) :: rest => v.IsData ∧ HoldData rest

end

mutual

/-- The tree of the literal that a value is printed as. -/
def literal : Value → Expr
  | boolean b => .boolean default b
  | bigint n =>
    let size : Expr := .number default (String.ofList (Nat.toDigits 10 n.val.natAbs ++ ['n']))
    if n.val < 0 then .unary default .neg size else size
  | string s => .string default s
  | blob bytes => .blob default .b16 (Hex.encode bytes)
  | array _ items => .array default (literals items)
  | object _ entries => .object default (literalMembers entries)
  | null | undefined | number _ | function _ _ => .null default

def literals : List Value → List Expr
  | [] => []
  | v :: vs => v.literal :: literals vs

def literalMembers : List (String × Value) → List Member
  | [] => []
  | (key, v) :: rest => .property key v.literal :: literalMembers rest

end

/-! ## What is printed is a literal -/

theorem isNumber_digits (n : Nat) : IsNumber (Nat.toDigits 10 n ++ ['n']) := by
  refine ⟨Nat.toDigits 10 n, [], [], ['n'], ⟨Nat.toDigits_ne_nil, ?_⟩, .inl rfl, .inl rfl,
    .inr rfl, rfl⟩
  intro c hc
  exact Nat.isDigit_of_mem_toDigits (by decide) (by decide) hc

theorem isText_quote (s : String) : IsText (Escape.quote s).toList s :=
  ⟨spells_quote s, by rw [String.ofList_toList, contents_quote]⟩

theorem isKey_keyText (key : String) : IsKey (keyText key).toList key := by
  unfold keyText
  split
  · next h => exact .inl ⟨h, rfl⟩
  · exact .inr (isText_quote key)

/-- The slot of an item, after the comma or the bracket before it. -/
def slot (before : List Char) (v : Value) : Slot Expr := ⟨before, v.text.toList, [], v.literal⟩

/-- The field of an entry, after the comma or the bracket before it. -/
def field (e : String × Value) : Field Expr :=
  ⟨⟨[' '], (keyText e.1).toList, [], e.1⟩, e.2.slot [' ']⟩

/-- Commas with blanks after them are commas alone, if all words but the first start with a
blank. -/
theorem intercalate_comma_blank (gap w : List Char) (ws : List (List Char)) :
    gap ++ [',', ' '].intercalate (w :: ws) =
      [','].intercalate ((gap ++ w) :: ws.map fun w => ' ' :: w) := by
  induction ws generalizing gap w with
  | nil => simp
  | cons w' ws ih =>
    have hmore := ih [' '] w'
    simp only [List.singleton_append] at hmore
    rw [List.map_cons, List.intercalate_cons_cons, List.intercalate_cons_cons, ← hmore]
    simp

theorem literals_eq_map (items : List Value) : literals items = items.map literal := by
  induction items with
  | nil => rfl
  | cons v vs ih => rw [literals, ih, List.map_cons]

theorem itemTexts_eq_map (items : List Value) : itemTexts items = items.map text := by
  induction items with
  | nil => rfl
  | cons v vs ih => rw [itemTexts, ih, List.map_cons]

theorem entryTexts_eq_map (entries : List (String × Value)) :
    entryTexts entries = entries.map fun e => keyText e.1 ++ ": " ++ e.2.text := by
  induction entries with
  | nil => rfl
  | cons e rest ih => rw [entryTexts, ih, List.map_cons]

theorem literalMembers_eq_map (entries : List (String × Value)) :
    literalMembers entries = entries.map fun e => .property e.1 e.2.literal := by
  induction entries with
  | nil => rfl
  | cons e rest ih => rw [literalMembers, ih, List.map_cons]

/-- A list of literals is a literal. -/
theorem isLiteral_array {id : Identity} {items : List Value}
    (h : ∀ v ∈ items, IsLiteral v.text.toList v.literal) :
    IsLiteral (array id items).text.toList (array id items).literal := by
  cases items with
  | nil =>
    have hempty := IsLiteral.array [] [] (by simp) (by simp) (by simp)
    simpa [text, itemTexts, literal, literals] using hempty
  | cons v vs =>
    obtain ⟨hv, hvs⟩ := List.forall_mem_cons.mp h
    have hlist := IsLiteral.array [] (v.slot [] :: vs.map (slot [' '])) (by simp)
      (List.forall_mem_cons.mpr ⟨by simp [slot, Slot.Spaced], by simp [slot, Slot.Spaced, isBlank]⟩)
      (List.forall_mem_cons.mpr ⟨hv, List.forall_mem_map.mpr hvs⟩)
    have hchars : [','].intercalate ((v.slot [] :: vs.map (slot [' '])).map Slot.chars) =
        [',', ' '].intercalate ((v :: vs).map fun v => v.text.toList) := by
      have hcommas := intercalate_comma_blank [] v.text.toList (vs.map fun v => v.text.toList)
      simpa [slot, Slot.chars, Function.comp_def] using hcommas.symm
    rw [hchars] at hlist
    simpa [text, literal, itemTexts_eq_map, literals_eq_map, slot, Function.comp_def] using hlist

/-- An object of literals is a literal. -/
theorem isLiteral_object {id : Identity} {entries : List (String × Value)}
    (h : ∀ e ∈ entries, IsLiteral e.2.text.toList e.2.literal) :
    IsLiteral (object id entries).text.toList (object id entries).literal := by
  cases entries with
  | nil =>
    have hempty := IsLiteral.object [] [] (by simp) (by simp) (by simp) (by simp)
    simpa [text, literal, literalMembers] using hempty
  | cons e rest =>
    have hobject := IsLiteral.object [' '] ((e :: rest).map field) (by simp [isBlank])
      (List.forall_mem_map.mpr fun e _ => by simp [field, slot, Field.Spaced, Slot.Spaced, isBlank])
      (List.forall_mem_map.mpr fun e _ => isKey_keyText e.1) (List.forall_mem_map.mpr h)
    have hchars : [','].intercalate (((e :: rest).map field).map Field.chars) =
        ' ' :: [',', ' '].intercalate
          ((e :: rest).map fun e => (keyText e.1 ++ ": " ++ e.2.text).toList) := by
      have hcommas := intercalate_comma_blank [' '] (keyText e.1 ++ ": " ++ e.2.text).toList
        (rest.map fun e => (keyText e.1 ++ ": " ++ e.2.text).toList)
      simpa [field, slot, Field.chars, Slot.chars, Function.comp_def] using hcommas.symm
    rw [hchars] at hobject
    rw [text, entryTexts_eq_map, String.toList_append, String.toList_append,
      String.toList_intercalate, List.map_map, Function.comp_def]
    simpa [literal, literalMembers_eq_map, field, slot, Function.comp_def] using hobject

/-- Of the least number as well, although that literal does not have it as its value. -/
theorem isLiteral_bigint (n : Int128) : IsLiteral (bigint n).text.toList (bigint n).literal := by
  have hdigits := isNumber_digits n.val.natAbs
  unfold text Int128.text literal
  split
  · simpa using IsLiteral.negative hdigits
  · simpa using IsLiteral.number hdigits

mutual

/-- The text of data is a literal. -/
theorem isLiteral_text : (v : Value) → v.IsData → IsLiteral v.text.toList v.literal
  | null, _ => .null
  | boolean b, _ => .boolean b
  | bigint n, _ => isLiteral_bigint n
  | string s, _ => .string (isText_quote s)
  | blob bytes, _ => by
    have hblob := IsLiteral.blob .b16 (Hex.allows_encode bytes)
    rw [String.ofList_toList] at hblob
    simpa [text, literal, blobLiteral, BlobForm.name] using hblob
  | array _ items, h => isLiteral_array (isLiteral_items items h)
  | object _ entries, h => isLiteral_object (isLiteral_entries entries h.2)

theorem isLiteral_items : (items : List Value) → AreData items →
    ∀ v ∈ items, IsLiteral v.text.toList v.literal
  | [], _ => List.forall_mem_nil _
  | v :: vs, h => List.forall_mem_cons.mpr ⟨isLiteral_text v h.1, isLiteral_items vs h.2⟩

theorem isLiteral_entries : (entries : List (String × Value)) → HoldData entries →
    ∀ e ∈ entries, IsLiteral e.2.text.toList e.2.literal
  | [], _ => List.forall_mem_nil _
  | (_, v) :: rest, h =>
    List.forall_mem_cons.mpr ⟨isLiteral_text v h.1, isLiteral_entries rest h.2⟩

end

/-! ## What is printed has the value -/

theorem digitsValue_toDigits (n : Nat) : Decimal.digitsValue (Nat.toDigits 10 n) = n := by
  have h : Nat.ofDigitChars 10 (Nat.toDigits 10 n) 0 = n := Nat.ofDigitChars_ten_toDigits
  exact h

/-- The digits of a size and the mark write the whole number with this size. -/
theorem ofNumber_digits {n : Nat} {m : Int128} (h : m.val = n) :
    ofNumber (String.ofList (Nat.toDigits 10 n ++ ['n'])) = .ok (bigint m) := by
  have hall : (Nat.toDigits 10 n).all Char.isDigit = true :=
    List.all_eq_true.mpr fun c hc => Nat.isDigit_of_mem_toDigits (by decide) (by decide) hc
  have hwhole : whole? (Nat.toDigits 10 n) = some m := by
    rw [whole?, hall, digitsValue_toDigits, Int128.ofInt?_eq_some.mpr h]
    simp [Nat.toDigits_ne_nil]
  rw [ofNumber, String.toList_ofList, numberOfChars?_whole, hwhole]
  rfl

/-- A whole number is its size, or the negative of it, which is in range as well. -/
theorem constant?_bigint {n : Int128} (h : n.val ≠ -0x80000000000000000000000000000000) :
    (bigint n).literal.constant? = some (bigint n) := by
  have hleast := n.least_le
  have hbound := n.lt_bound
  unfold literal
  by_cases hn : n.val < 0
  · rw [if_pos hn, Expr.constant?]
    have hsize := ofNumber_digits (m := ⟨n.val.natAbs, by omega, by omega⟩) rfl
    have hneg : Int128.neg? ⟨n.val.natAbs, by omega, by omega⟩ = some n := by
      rw [Int128.neg?, Int128.ofInt?_eq_some]
      show n.val = -(n.val.natAbs : Int)
      omega
    rw [hsize]
    simp only [bind, Except.bind, unary, hneg, Value.exact, Except.toOption]
  · rw [if_neg hn, Expr.constant?, ofNumber_digits (m := n) (by omega)]
    rfl

mutual

/-- The literal of data has the value that was printed. -/
theorem constant?_literal : (v : Value) → v.IsData → v.literal.constant? = some v.bare
  | null, _ | boolean _, _ | string _, _ => rfl
  | bigint n, h => constant?_bigint h
  | blob bytes, _ => by
    rw [literal, Expr.constant?, ofBlob, BlobForm.decode, Hex.decode_encode]
    rfl
  | array _ items, h => by
    rw [literal, Expr.constant?, constants?_literals items h]
    rfl
  | object _ entries, h => by
    rw [literal, Expr.constant?, constants?_literalMembers entries h.2, Option.bind_some,
      keys_bareEntries, if_pos h.1]
    rfl

theorem constants?_literals : (items : List Value) → AreData items →
    Expr.constants? (literals items) = some (bareItems items)
  | [], _ => rfl
  | v :: vs, h => by
    rw [literals, Expr.constants?, constant?_literal v h.1, constants?_literals vs h.2]
    rfl

theorem constants?_literalMembers : (entries : List (String × Value)) → HoldData entries →
    Member.constants? (literalMembers entries) = some (bareEntries entries)
  | [], _ => rfl
  | (key, v) :: rest, h => by
    rw [literalMembers, Member.constants?, constant?_literal v h.1,
      constants?_literalMembers rest h.2]
    rfl

end

/-! ## Values that look alike are equal -/

mutual

theorem equals_of_bare : (v : Value) → v.IsData → {w : Value} → w.bare = v.bare → w.equals v = true
  | null, _, w, h => by cases w <;> cases h; rfl
  | boolean b, _, w, h => by cases w <;> cases h; simp [equals, strictEquals]
  | bigint n, _, w, h => by cases w <;> cases h; simp [equals, strictEquals]
  | string s, _, w, h => by cases w <;> cases h; simp [equals, strictEquals]
  | blob bytes, _, w, h => by cases w <;> cases h; simp [equals, strictEquals]
  | array _ items, hv, w, h => by
    cases w with
    | array id items' => exact equalItems_of_bare items hv (Value.array.inj h).2
    | _ => cases h
  | object _ entries, hv, w, h => by
    cases w with
    | object id entries' => exact equalEntries_of_bare entries hv.2 (Value.object.inj h).2
    | _ => cases h

theorem equalItems_of_bare : (vs : List Value) → AreData vs → {ws : List Value} →
    bareItems ws = bareItems vs → equalItems ws vs = true
  | [], _, ws, h => by
    cases ws with
    | nil => rfl
    | cons => cases h
  | v :: vs, hv, ws, h => by
    cases ws with
    | nil => cases h
    | cons w ws =>
      obtain ⟨hw, hws⟩ := List.cons.inj h
      rw [equalItems, equals_of_bare v hv.1 hw, equalItems_of_bare vs hv.2 hws]
      rfl

theorem equalEntries_of_bare : (entries : List (String × Value)) → HoldData entries →
    {entries' : List (String × Value)} → bareEntries entries' = bareEntries entries →
    equalEntries entries' entries = true
  | [], _, entries', h => by
    cases entries' with
    | nil => rfl
    | cons => cases h
  | (key, v) :: rest, hv, entries', h => by
    cases entries' with
    | nil => cases h
    | cons e rest' =>
      obtain ⟨he, hrest⟩ := List.cons.inj h
      obtain ⟨hkey, hw⟩ := Prod.mk.inj he
      rw [equalEntries, equals_of_bare v hv.1 hw, equalEntries_of_bare rest hv.2 hrest, hkey]
      simp

end

end Value

/-! ## Reading back -/

/-- A list of the text of data is loaded under a free name, and holds a value that is equal to what
was printed. -/
theorem Session.value_of_text {v : Value} (hv : v.IsData) {s : Session} {name : String}
    (hfree : s.store.contains name = false) (hsteps : 1 ≤ s.store.stepsLeft)
    (hbytes : v.size + 1 ≤ s.store.bytesLeft) (hlevels : 1 ≤ s.host.maxDepth)
    (hparse : ("[" ++ v.text ++ "]").length ≤ s.host.maxParseDepth) :
    ∃ loaded id found after,
      s.loadSource name (Utf8.encode ("[" ++ v.text ++ "]")) = (.ok (), loaded) ∧
        loaded.value name = (.ok (.array id [found]), after) ∧ found.equals v = true := by
  have hliteral := IsLiteral.array [] [v.slot []] (by simp)
    (by simp [Value.slot, Slot.Spaced]) (by simpa [Value.slot] using v.isLiteral_text hv)
  have hchars : '[' :: ([','].intercalate ([v.slot []].map Slot.chars) ++ ([] ++ [']'])) =
      ("[" ++ v.text ++ "]").toList := by
    simp [Value.slot, Slot.chars]
  rw [hchars] at hliteral
  obtain ⟨root, hroot, hbare⟩ :=
    hliteral.parse (List.forall_mem_nil _) (List.forall_mem_nil _) hparse
  have hconstant : root.constant? = some (.array default [v.bare]) := by
    rw [Expr.constant?_congr hbare]
    simp [Expr.constant?, Expr.constants?, Value.slot, v.constant?_literal hv]
  obtain ⟨loaded, found, after, hload, hvalue, hfound⟩ :=
    Session.value_of_constant name hroot hconstant (by simp [Value.paths])
      (by simpa [Value.paths] using hfree) hsteps
      (by simpa [Value.charges, Value.size, Value.itemsSize, Value.size_bare,
        Nat.add_comm] using hbytes)
      hlevels
  cases found with
  | array id items =>
    obtain ⟨x, hx, hitems⟩ : ∃ x, x.bare = v.bare ∧ items = [x] := by
      have hitems := (Value.array.inj hfound).2
      rw [Value.bareItems_eq_map, List.map_eq_singleton_iff] at hitems
      obtain ⟨x, rfl, hx⟩ := hitems
      exact ⟨x, hx, rfl⟩
    subst hitems
    rw [List.nil_append, List.append_nil] at hload
    exact ⟨loaded, id, x, after, hload, hvalue, v.equals_of_bare hv hx⟩
  | _ => cases hfound

/-- An object with a key that is a name and one that is none, a negative number and a blob. -/
def sampleData : Value :=
  .object default [("x", .array default [.bigint ⟨-12, by decide, by decide⟩, .blob [0xA0, 0xFF]]),
    ("a \"b\"", .string "\n")]

/-- The sample is printed with one key in quotes, and the list of it is read back. -/
theorem value_of_text_of_sample :
    sampleData.text = "\x7b x: [-12n, b16'a0ff'], \"a \\\"b\\\"\": \"\\n\" \x7d" ∧
    sampleData.IsData ∧
      ∃ loaded id found after,
        (Session.new ⟨.memory [], Sha256.digest, 1, 50⟩ ⟨1, 15⟩).loadSource "v"
          (Utf8.encode ("[" ++ sampleData.text ++ "]")) = (.ok (), loaded) ∧
        loaded.value "v" = (.ok (.array id [found]), after) ∧ found.equals sampleData = true := by
  have hdata : sampleData.IsData := by
    simp [sampleData, Value.IsData, Value.AreData, Value.HoldData, Object.keys]
  have htext :
      sampleData.text = "\x7b x: [-12n, b16'a0ff'], \"a \\\"b\\\"\": \"\\n\" \x7d" := by
    decide +kernel
  refine ⟨htext, hdata, Session.value_of_text hdata rfl (by decide) (by decide) (by decide) ?_⟩
  rw [htext]
  decide

end LazyConfig
