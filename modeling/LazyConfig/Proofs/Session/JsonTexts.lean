-- JSON texts as documents. The properties of a document share one name space of dotted paths, so a
-- JSON text is loaded if no two of its properties have the same path, and then it holds what it
-- denotes.
-- Main statements: what a JSON text with distinct paths is loaded as, that any other is refused,
-- and a text that repeats no key and is refused all the same.
import LazyConfig.Proofs.Session.Constants
import LazyConfig.Proofs.Source.Json
import LazyConfig.Proofs.Source.Limits

namespace LazyConfig

variable {text : List Char} {w : Value}

/-- A JSON text is read as a constant of the value that it denotes. -/
theorem IsJson.parse (h : IsJson false text w) {limit : Nat} (hlimit : text.length ≤ limit) :
    ∃ root, LazyConfig.parse limit (Utf8.encodeChars text) = .ok root ∧
      root.constant? = some w := by
  obtain ⟨before, cs, after, hspaces, hdenotes, rfl⟩ := h
  obtain ⟨hbefore, hafter⟩ := List.forall_mem_append.mp hspaces
  obtain ⟨e, hliteral, hvalue⟩ := hdenotes.exists_literal
  have hlength : cs.length ≤ limit := by
    rw [List.length_append, List.length_append] at hlimit
    omega
  obtain ⟨root, hparse, hbare⟩ := hliteral.parse
    (fun c hc => Json.isBlank_of_isSpace (hbefore c hc))
    (fun c hc => Json.isBlank_of_isSpace (hafter c hc)) hlength
  exact ⟨root, hparse, (Expr.constant?_congr hbare).trans hvalue⟩

/-! ## Objects without spaces -/

theorem isString_plain {pairs : Bool} {w : List Char}
    (h : ∀ c ∈ w, 0x20 ≤ c.toNat ∧ c ≠ '"' ∧ c ≠ '\\') :
    Json.IsString pairs ('"' :: (w ++ ['"'])) (String.ofList w) := by
  refine ⟨w, ?_, rfl⟩
  rw [String.toList_ofList]
  induction w with
  | nil => exact .nil
  | cons c w ih =>
    obtain ⟨hc, hw⟩ := List.forall_mem_cons.mp h
    exact .plain hc (ih hw)

/-- A property without spaces. -/
def tightField (key text : List Char) (w : Value) : Field Value :=
  ⟨⟨[], '"' :: (key ++ ['"']), [], String.ofList key⟩, ⟨[], text, [], w⟩⟩

/-- Properties without spaces make an object, if their keys need no escapes. -/
theorem denotes_tight (pairs : Bool) (entries : List (List Char × List Char × Value))
    (hkeys : ∀ e ∈ entries, ∀ c ∈ e.1, 0x20 ≤ c.toNat ∧ c ≠ '"' ∧ c ≠ '\\')
    (hnodup : (entries.map fun e => String.ofList e.1).Nodup)
    (h : ∀ e ∈ entries, Json.Denotes pairs e.2.1 e.2.2) :
    Json.Denotes pairs
      ('\x7b' :: ([','].intercalate (entries.map fun e => '"' :: (e.1 ++ '"' :: ':' :: e.2.1)) ++
        ['\x7d']))
      (.object default (entries.map fun e => (String.ofList e.1, e.2.2))) := by
  have hobject := Json.Denotes.object [] (entries.map fun e => tightField e.1 e.2.1 e.2.2)
    (List.forall_mem_nil _) (List.forall_mem_map.mpr fun e _ => by simp [tightField])
    (List.forall_mem_map.mpr fun e he => isString_plain (hkeys e he))
    (by simpa [tightField, Function.comp_def] using hnodup) (List.forall_mem_map.mpr h)
  simpa [tightField, Function.comp_def, Field.chars, Slot.chars] using hobject

/-! ## Distinct paths -/

/-- A JSON text is loaded into a new session under any name, and its value is what it denotes, if no
two of its properties have the same path and the limits are large enough for it. -/
theorem Session.value_of_json (h : IsJson false text w) (host : Host) (limits : Limits)
    (name : String) (hpaths : (w.paths name).Nodup) (hparse : text.length ≤ host.maxParseDepth)
    (hsteps : w.forcings ≤ limits.steps) (hbytes : w.charges ≤ limits.bytes)
    (hlevels : w.levels ≤ host.maxDepth) :
    ∃ loaded v after,
      (Session.new host limits).loadSource name (Utf8.encodeChars text) = (.ok (), loaded) ∧
        loaded.value name = (.ok v, after) ∧ v.bare = w := by
  obtain ⟨root, hroot, hconstant⟩ := h.parse hparse
  exact Session.value_of_constant name hroot hconstant hpaths (fun _ _ => rfl) hsteps hbytes hlevels

/-- The double of a number with a sign. -/
theorem denotes_minus_five (pairs : Bool) :
    Json.Denotes pairs "-5".toList (.number (Decimal.toDouble true ⟨5, 0⟩)) := by
  have hfive : Lexer.IsDigits ['5'] := ⟨by simp, by simp⟩
  have hnumeral := Json.Numeral.intro ⟨hfive, by decide⟩ .none .none
  have hvalue : Decimal.value ⟨5, 0⟩ = (Json.digitsOf ['5'] + 0) * 10 ^ (0 : Int) := by
    have hdigits : Json.digitsOf ['5'] = 5 := by decide
    rw [Decimal.value, hdigits, add_zero]
  exact .negative hnumeral (hvalue ▸ Decimal.isNearest_toDouble true ⟨5, 0⟩)

/-- An object with an object in it, and a text with escapes. -/
def sampleJson : List Char := "\x7b\"a\":\x7b\"b\":-5\x7d,\"c\":\"\\u00E9\\n\"\x7d".toList

def sampleJsonValue : Value :=
  .object default [("a", .object default [("b", .number (Decimal.toDouble true ⟨5, 0⟩))]),
    ("c", .string "é\n")]

theorem value_of_json_of_sample :
    IsJson false sampleJson sampleJsonValue ∧ ∃ loaded v after,
      (Session.new ⟨.memory [], Sha256.digest, 3, 40⟩ ⟨4, 20⟩).loadSource "v"
        (Utf8.encodeChars sampleJson) = (.ok (), loaded) ∧
        loaded.value "v" = (.ok v, after) ∧ v.bare = sampleJsonValue := by
  have ha : ∀ c ∈ ['a'], 0x20 ≤ c.toNat ∧ c ≠ '"' ∧ c ≠ '\\' := by simp
  have hb : ∀ c ∈ ['b'], 0x20 ≤ c.toNat ∧ c ≠ '"' ∧ c ≠ '\\' := by simp
  have hc : ∀ c ∈ ['c'], 0x20 ≤ c.toNat ∧ c ≠ '"' ∧ c ≠ '\\' := by simp
  have hhex : Json.IsHex ['0', '0', 'E', '9'] 'é'.toNat :=
    ⟨_, _, _, _, 0, 0, 14, 9, by decide, by decide, by decide, by decide, rfl, rfl⟩
  have htext : Json.Denotes false "\"\\u00E9\\n\"".toList (.string "é\n") :=
    .string ⟨_, .unicode hhex (.short (by decide) .nil), rfl⟩
  have hinner := denotes_tight false [(['b'], "-5".toList, _)] (List.forall_mem_singleton.mpr hb)
    (List.nodup_singleton _) (List.forall_mem_singleton.mpr (denotes_minus_five false))
  have houter := denotes_tight false [(['a'], _, _), (['c'], _, _)]
    (List.forall_mem_cons.mpr ⟨ha, List.forall_mem_singleton.mpr hc⟩) (by decide)
    (List.forall_mem_cons.mpr ⟨hinner, List.forall_mem_singleton.mpr htext⟩)
  have hjson : IsJson false sampleJson sampleJsonValue :=
    ⟨[], sampleJson, [], List.forall_mem_nil _, houter, rfl⟩
  refine ⟨hjson, Session.value_of_json hjson _ _ _ ?_ ?_ ?_ ?_ ?_⟩
  all_goals decide

/-! ## Paths that collide -/

/-- A JSON text with two properties of the same path is refused, and the session stays as it was. -/
theorem Session.loadSource_of_collision (h : IsJson false text w) (s : Session) (name : String)
    (hpaths : ¬(w.paths name).Nodup) (hparse : text.length ≤ s.host.maxParseDepth) :
    ∃ path, s.loadSource name (Utf8.encodeChars text) =
      (.error (.evaluation (.duplicateBinding path)), s) := by
  obtain ⟨root, hroot, hconstant⟩ := h.parse hparse
  have hbindings : (documentBindings name root).map (·.path) = w.paths name :=
    paths_bindingsAt root hconstant [] name
  cases htaken : firstTaken s.store.contains [] ((documentBindings name root).map (·.path)) with
  | none => exact absurd (hbindings ▸ (firstTaken_eq_none.mp htaken).1) hpaths
  | some path =>
    refine ⟨path, ?_⟩
    unfold Session.loadSource Session.attempt
    simp only [hroot, exec_loadDocument, htaken]
    rfl

/-! ## Texts that are refused -/

/-- The text is loaded into every new session whose limits are large enough, under any name, and its
value is as given. -/
def LoadedAs (text : List Char) (w : Value) : Prop :=
  ∃ enough, ∀ (host : Host) (limits : Limits) (name : String), enough ≤ host.maxParseDepth →
    enough ≤ host.maxDepth → enough ≤ limits.steps → enough ≤ limits.bytes → ∃ loaded v after,
      (Session.new host limits).loadSource name (Utf8.encodeChars text) = (.ok (), loaded) ∧
        loaded.value name = (.ok v, after) ∧ v.bare = w

/-- A property of an object in an object, and another one with a point in its key. -/
def dottedText : List Char := "\x7b\"a\":\x7b\"b\":null\x7d,\"a.b\":null\x7d".toList

def dottedValue : Value :=
  .object default [("a", .object default [("b", .null)]), ("a.b", .null)]

/-- A character beyond the first plane, as a pair of escapes. -/
def pairText : List Char := "\"\\uD83D\\uDE00\"".toList

theorem isJson_dotted (pairs : Bool) : IsJson pairs dottedText dottedValue := by
  have hb : ∀ c ∈ ['b'], 0x20 ≤ c.toNat ∧ c ≠ '"' ∧ c ≠ '\\' := by simp
  have ha : ∀ c ∈ ['a'], 0x20 ≤ c.toNat ∧ c ≠ '"' ∧ c ≠ '\\' := by simp
  have hab : ∀ c ∈ ['a', '.', 'b'], 0x20 ≤ c.toNat ∧ c ≠ '"' ∧ c ≠ '\\' := by simp
  have hinner := denotes_tight pairs [(['b'], "null".toList, .null)]
    (List.forall_mem_singleton.mpr hb) (List.nodup_singleton _)
    (List.forall_mem_singleton.mpr .null)
  have houter := denotes_tight pairs [(['a'], _, _), (['a', '.', 'b'], "null".toList, .null)]
    (List.forall_mem_cons.mpr ⟨ha, List.forall_mem_singleton.mpr hab⟩) (by decide)
    (List.forall_mem_cons.mpr ⟨hinner, List.forall_mem_singleton.mpr .null⟩)
  exact ⟨[], dottedText, [], List.forall_mem_nil _, houter, rfl⟩

/-- A text that repeats no key is refused if two of its properties have the same path. -/
theorem not_loadedAs_dotted : ¬LoadedAs dottedText dottedValue := by
  rintro ⟨enough, h⟩
  let host : Host := ⟨.memory [], Sha256.digest, enough, enough + 30⟩
  obtain ⟨loaded, v, after, hload, -⟩ :=
    h host ⟨enough, enough⟩ "v" (Nat.le_add_right _ _) le_rfl le_rfl le_rfl
  obtain ⟨path, hrefused⟩ := (Session.new host ⟨enough, enough⟩).loadSource_of_collision
    (isJson_dotted false) "v" (by decide) (Nat.le_add_left _ _)
  rw [hload] at hrefused
  cases hrefused

/-- A pair of escapes that name surrogates is no text, however many levels there are. -/
theorem parse_pairText (limit : Nat) : (parse limit (Utf8.encodeChars pairText)).isOk = false := by
  have htokens : tokenize (Utf8.encodeChars pairText) =
      .ok [⟨.string, ⟨0, 14⟩, String.ofList pairText⟩, .endAt 14] := by decide +kernel
  have hfault : parseTokens 0 [⟨.string, ⟨0, 14⟩, String.ofList pairText⟩, .endAt 14] =
      .error ⟨.invalidString (.notScalar 0 0xD83D), ⟨0, 14⟩⟩ := by decide +kernel
  have hcut : ¬Grammar.IsCut [⟨.string, ⟨0, 14⟩, String.ofList pairText⟩, .endAt 14] 0 := by
    rintro ⟨f, hf, hkind⟩
    rw [hfault] at hf
    cases hf
    cases hkind
  rw [parse_of_tokenize htokens, (Grammar.not_isCut_of_le hcut (Nat.zero_le limit)).2, hfault]
  rfl

/-- A pair of escapes is refused that name surrogates. -/
theorem not_loadedAs_pair : ¬LoadedAs pairText (.string "😀") := by
  rintro ⟨enough, h⟩
  obtain ⟨loaded, v, after, hload, -⟩ :=
    h ⟨.memory [], Sha256.digest, enough, enough⟩ ⟨enough, enough⟩ "v" le_rfl le_rfl le_rfl le_rfl
  unfold Session.loadSource at hload
  have hlimit := parse_pairText enough
  split at hload
  · cases hload
  · next root hparse =>
    have hok : parse enough (Utf8.encodeChars pairText) = .ok root := hparse
    rw [hok] at hlimit
    cases hlimit

theorem isJson_pair : IsJson true pairText (.string "😀") := by
  have hhigh : Json.IsHex ['D', '8', '3', 'D'] (0xD800 + 0x3D) :=
    ⟨_, _, _, _, 13, 8, 3, 13, by decide, by decide, by decide, by decide, rfl, rfl⟩
  have hlow : Json.IsHex ['D', 'E', '0', '0'] (0xDC00 + 0x200) :=
    ⟨_, _, _, _, 13, 14, 0, 0, by decide, by decide, by decide, by decide, rfl, rfl⟩
  refine ⟨[], pairText, [], List.forall_mem_nil _, ?_, rfl⟩
  exact .string ⟨_, .pair rfl hhigh hlow (by decide) rfl .nil, rfl⟩

/-- Not every JSON text without repeated keys is loaded: neither one in which two properties have
the same path, nor one with a pair of escapes that name surrogates. -/
theorem json_refused :
    (IsJson true dottedText dottedValue ∧ ¬LoadedAs dottedText dottedValue) ∧
      IsJson true pairText (.string "😀") ∧ ¬LoadedAs pairText (.string "😀") :=
  ⟨⟨isJson_dotted true, not_loadedAs_dotted⟩, isJson_pair, not_loadedAs_pair⟩

end LazyConfig
