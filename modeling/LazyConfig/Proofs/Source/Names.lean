-- Encoded bytes as names. The symbols of the alphabet are characters of names, and the dollar sign
-- in front starts a name that is no word of the language.
-- Main statement: encoded bytes are decoded again, and stand in a source as the name that they are.
import LazyConfig.Proofs.Codec.Js64
import LazyConfig.Proofs.Source.Printing
import Mathlib.Algebra.Order.Floor.Div

namespace LazyConfig

open Lexer
open Utf8 (width encodeChars)

/-! ## A text that is a name -/

/-- The token of a name that is the whole text. -/
def Token.name (name : String) : Token := ⟨.identifier, ⟨0, width name.toList⟩, name⟩

theorem tokenize_name {name : String} (h : isName name = true) :
    tokenize (Utf8.encode name) = .ok [.name name, .endAt (width name.toList)] := by
  have hgap : IsGap [] := .nil
  have hstop : Stops .identifier [] := avoids_nil _
  have hword := tokens_word hgap (.word (isPrintable_name h).1) hstop (width name.toList) 0
  have hend : tokens (width name.toList) [] = .ok [] := tokens_nil rfl
  simp only [List.nil_append, List.append_nil, Utf8.width_nil, Nat.zero_add, places_nil, hend,
    Except.map, here, Token.text_of, String.ofList_toList] at hword
  simp [tokenize, Utf8.encode, glyphs_encodeChars, Utf8.length_encodeChars, hword,
    Utf8.decodeFrom_encodeChars, Token.name]

namespace Grammar

/-- There is a grammar at each depth, whatever is inside. -/
theorem exists_inside (limit depth : Nat) : ∃ inside, upTo limit depth = ofInside inside :=
  (exists_deep limit (limit - depth) depth).imp fun _ h => h.1

/-- A word before the end is all that is read. -/
theorem parseTokens_word {t : Token} (h : t.kind = .identifier) (limit size : Nat) :
    parseTokens limit [t, .endAt size] = .ok (word t) := by
  obtain ⟨inside, hinside⟩ := exists_inside limit 0
  have hunary : unaryOp? t = none := by simp [unaryOp?, h]
  have hbinary : binaryOp? (.endAt size) = none := rfl
  have hopen : (Token.endAt size).isSymbol "(" = false := rfl
  have hend : (peek [.endAt size]).kind = .eof := rfl
  simp [parseTokens, hinside, ofInside, climb, operand, hunary, callChain, primary, h, calls, hopen,
    climbFrom, hbinary, bind, Except.bind, hend]

end Grammar

/-- A name that is no word of the language is read as itself. -/
theorem parse_name {name : String} (h : IsFreeName name) (limit : Nat) :
    parse limit (Utf8.encode name) = .ok (.identifier ⟨0, width name.toList⟩ name) := by
  obtain ⟨hname, htrue, hfalse, hnull⟩ := h
  have hword : Grammar.word (.name name) = .identifier ⟨0, width name.toList⟩ name := by
    simp [Grammar.word, Token.name, htrue, hfalse, hnull]
  simp [parse, tokenize_name hname, Grammar.parseTokens_word (t := .name name) rfl, hword, bind,
    Except.bind, Except.mapError]

/-! ## Encoded bytes -/

namespace Js64

theorem isNameRest_symbol : ∀ n < 64, isNameRest (symbol n) = true := by decide

theorem utf8Size_symbol : ∀ n < 64, (symbol n).utf8Size = 1 := by decide

variable (bytes : Bytes)

theorem toList_encode : (encode bytes).toList = '$' :: (sextets bytes).map symbol :=
  String.toList_ofList

/-- No word of the language starts with a dollar sign. -/
theorem isFreeName_encode : IsFreeName (encode bytes) := by
  have hrest : ((sextets bytes).map symbol).all isNameRest = true := by
    rw [List.all_map, List.all_eq_true]
    exact fun n hn => isNameRest_symbol n (sextets_lt bytes n hn)
  have hne : ∀ word : String, word.toList.head? ≠ some '$' → encode bytes ≠ word := by
    rintro word hword rfl
    exact hword (by rw [toList_encode]; rfl)
  refine ⟨?_, hne _ (by decide), hne _ (by decide), hne _ (by decide)⟩
  rw [isName, toList_encode]
  exact hrest

/-- Each symbol takes one byte. -/
theorem width_encode : width (encode bytes).toList = encodedLength bytes.length := by
  have hsymbols : ∀ ns : List Nat, (∀ n ∈ ns, n < 64) → width (ns.map symbol) = ns.length := by
    intro ns hns
    induction ns with
    | nil => rfl
    | cons n ns ih =>
      obtain ⟨hn, hns⟩ := List.forall_mem_cons.mp hns
      rw [List.map_cons, Utf8.width_cons, utf8Size_symbol n hn, ih hns, List.length_cons,
        Nat.add_comm]
  rw [toList_encode, Utf8.width_cons, hsymbols _ (sextets_lt bytes), length_sextets, encodedLength]
  exact Nat.add_comm _ _

theorem encodedLength_eq (n : Nat) : encodedLength n = (4 * n) ⌈/⌉ 3 + 1 := by
  rw [encodedLength, Nat.ceilDiv_eq_add_pred_div, Nat.mul_comm, Nat.add_sub_assoc (by decide)]

/-- Encoded bytes are decoded again. Their text has a dollar sign and then a character for each six
bits begun, all of one byte, and it may stand bare as a key. As a source it is one name up to its
end, and however deep expressions may nest it is read as this name. -/
theorem encode_is_read_back :
    decode (encode bytes) = .ok bytes ∧
    (encode bytes).length = encodedLength bytes.length ∧
    encodedLength bytes.length = (4 * bytes.length) ⌈/⌉ 3 + 1 ∧
    (encode bytes).toList.head? = some '$' ∧
    isJs64 (encode bytes) = true ∧
    isName (encode bytes) = true ∧
    tokenize (Utf8.encode (encode bytes)) =
      .ok [⟨.identifier, ⟨0, (encode bytes).length⟩, encode bytes⟩,
        .endAt (encode bytes).length] ∧
    ∀ limit, parse limit (Utf8.encode (encode bytes)) =
      .ok (.identifier ⟨0, (encode bytes).length⟩ (encode bytes)) := by
  have hdecode := decode_encode bytes
  have hfree := isFreeName_encode bytes
  have hwidth : width (encode bytes).toList = (encode bytes).length := by
    rw [width_encode, length_encode]
  refine ⟨hdecode, length_encode bytes, encodedLength_eq _, by rw [toList_encode]; rfl, ?_, hfree.1,
    ?_, ?_⟩
  · rw [isJs64, hdecode]
  · rw [tokenize_name hfree.1, Token.name, hwidth]
  · intro limit
    rw [parse_name hfree, hwidth]

end Js64

end LazyConfig
