-- Which texts name bytes, and which of them are written for some bytes. Reading drops the bits that
-- fill no byte, so a text is the name of the bytes it is read as only if it has no symbol too many
-- and those bits are zero.
-- Main statement: what is read and why anything else is refused, and that encoding the bytes gives
-- the text back just for these texts, which are all that are ever written.
import LazyConfig.Proofs.Codec.Js64
import Mathlib.Algebra.Group.Nat.Defs

namespace LazyConfig.Js64

open Utf8 (width)

/-! ## The alphabet -/

/-- All symbols, in the order of their values. -/
def alphabet : List Char :=
  "$0123456789ABCDEFGHIJKLMNOPQRSTUVWXYZ_abcdefghijklmnopqrstuvwxyz".toList

theorem alphabet_getElem? : ∀ n < 64, alphabet[n]? = some (symbol n) := by decide

theorem utf8Size_of_mem : ∀ c ∈ alphabet, c.utf8Size = 1 := by
  have hall : alphabet.all (fun c => c.utf8Size = 1) = true := by decide
  exact fun c hc => of_decide_eq_true (List.all_eq_true.mp hall c hc)

theorem lt_of_value? {c : Char} {n : Nat} (h : value? c = some n) : n < 64 ∧ symbol n = c := by
  have hle : ∀ a b : Char, a ≤ b ↔ a.toNat ≤ b.toNat := fun _ _ => Iff.rfl
  unfold value? at h
  simp only [hle] at h
  split at h
  · next hc =>
    cases h
    exact ⟨by decide, hc.symm⟩
  split at h
  · next hdigit =>
    obtain ⟨hlow, hhigh⟩ : 48 ≤ c.toNat ∧ c.toNat ≤ 57 := hdigit
    cases h
    rw [symbol, if_neg (by omega), if_pos (by omega), Nat.sub_add_cancel (by omega)]
    exact ⟨by omega, Char.ofNat_toNat c⟩
  split at h
  · next hcapital =>
    obtain ⟨hlow, hhigh⟩ : 65 ≤ c.toNat ∧ c.toNat ≤ 90 := hcapital
    cases h
    rw [symbol, if_neg (by omega), if_neg (by omega), if_pos (by omega),
      Nat.sub_add_cancel (by omega)]
    exact ⟨by omega, Char.ofNat_toNat c⟩
  split at h
  · next hc =>
    cases h
    exact ⟨by decide, hc.symm⟩
  split at h
  · next hsmall =>
    obtain ⟨hlow, hhigh⟩ : 97 ≤ c.toNat ∧ c.toNat ≤ 122 := hsmall
    cases h
    rw [symbol, if_neg (by omega), if_neg (by omega), if_neg (by omega), if_neg (by omega),
      Nat.sub_add_cancel (by omega)]
    exact ⟨by omega, Char.ofNat_toNat c⟩
  · cases h

theorem value?_eq_some {c : Char} {n : Nat} : value? c = some n ↔ alphabet[n]? = some c := by
  constructor
  · intro h
    obtain ⟨hn, hc⟩ := lt_of_value? h
    rw [alphabet_getElem? n hn, hc]
  · intro h
    obtain ⟨hn, _⟩ := List.getElem?_eq_some_iff.mp h
    have hn' : n < 64 := hn
    rw [alphabet_getElem? n hn', Option.some.injEq] at h
    rw [← h]
    exact value?_symbol n hn'

theorem value?_eq_none {c : Char} : value? c = none ↔ c ∉ alphabet := by
  rw [List.mem_iff_getElem?, Option.eq_none_iff_forall_ne_some]
  simp only [← value?_eq_some, ne_eq, not_exists]

/-! ## Reading symbols -/

/-- The first character outside the alphabet is refused where it stands. -/
theorem values_foreign (offset : Nat) {front : List Char} {c : Char}
    (hfront : ∀ x ∈ front, x ∈ alphabet) (hc : c ∉ alphabet) (rest : List Char) :
    values offset (front ++ c :: rest) = .error (.invalidSymbol (offset + width front)) := by
  induction front generalizing offset with
  | nil => simp [values, value?_eq_none.mpr hc]
  | cons x front ih =>
    obtain ⟨hx, hfront⟩ := List.forall_mem_cons.mp hfront
    obtain ⟨n, hn⟩ := List.mem_iff_getElem?.mp hx
    rw [List.cons_append, values, value?_eq_some.mpr hn, ih (offset + 1) hfront, Utf8.width_cons,
      utf8Size_of_mem x hx, ← Nat.add_assoc]
    rfl

/-! ## Bits that fill no byte -/

/-- Six-bit values that fill bytes: there is none too many, and the bits of the last one that fill
no byte, which are the high ones, are zero. -/
def Filled (ns : List Nat) : Prop :=
  ns.length % 4 ≠ 1 ∧ ∀ n ∈ ns.getLast?, n < 2 ^ (6 - 6 * ns.length % 8)

theorem length_octets : (ns : List Nat) → (octets ns).length = 6 * ns.length / 8
  | [] | [_] | [_, _] | [_, _, _] => by simp [octets]
  | _ :: _ :: _ :: _ :: rest => by
    simp only [octets, List.length_cons, length_octets rest]
    omega

theorem filled_pair {a b : Nat} : Filled [a, b] ↔ b < 4 := by simp [Filled]

theorem filled_triple {a b c : Nat} : Filled [a, b, c] ↔ c < 16 := by simp [Filled]

/-- Four values fill three bytes, so nothing of them is dropped. -/
theorem filled_group {a b c d : Nat} (hd : d < 64) (rest : List Nat) :
    Filled (a :: b :: c :: d :: rest) ↔ Filled rest := by
  have hlength : (a :: b :: c :: d :: rest).length = rest.length + 4 := rfl
  have hbits : 6 * (rest.length + 4) % 8 = 6 * rest.length % 8 := by omega
  unfold Filled
  rw [hlength, Nat.add_mod_right, hbits]
  cases rest with
  | nil => simpa using hd
  | cons e rest => simp [List.getLast?_cons_cons]

theorem sextets_octets_iff : (ns : List Nat) → (∀ n ∈ ns, n < 64) →
    (sextets (octets ns) = ns ↔ Filled ns)
  | [], _ => by simp [octets, sextets, Filled]
  | [a], _ => by simp [octets, sextets, Filled]
  | [a, b], h => by
    simp only [List.forall_mem_cons] at h
    obtain ⟨ha, hb, -⟩ := h
    simp only [filled_pair, octets, sextets, UInt8.toNat_ofNat', List.cons.injEq, and_true]
    omega
  | [a, b, c], h => by
    simp only [List.forall_mem_cons] at h
    obtain ⟨ha, hb, hc, -⟩ := h
    simp only [filled_triple, octets, sextets, UInt8.toNat_ofNat', List.cons.injEq, and_true]
    omega
  | a :: b :: c :: d :: rest, h => by
    simp only [List.forall_mem_cons] at h
    obtain ⟨ha, hb, hc, hd, hrest⟩ := h
    have ih := sextets_octets_iff rest hrest
    rw [filled_group hd, ← ih]
    simp only [octets, sextets, UInt8.toNat_ofNat', List.cons.injEq]
    constructor
    · intro h
      exact h.2.2.2.2
    · intro h
      exact ⟨by omega, by omega, by omega, by omega, h⟩

/-! ## Texts -/

/-- What a text is read as: what is wrong first, or the bytes of its symbols. -/
inductive Reads (text : String) : Except Js64Error Bytes → Prop
  | empty (h : text = "") : Reads text (.error .empty)
  | unmarked {c : Char} {rest : List Char} (h : text.toList = c :: rest) (hc : c ≠ '$') :
      Reads text (.error .missingSentinel)
  | foreign {front rest : List Char} {c : Char} (h : text.toList = '$' :: front ++ c :: rest)
      (hfront : ∀ x ∈ front, x ∈ alphabet) (hc : c ∉ alphabet) :
      Reads text (.error (.invalidSymbol (width ('$' :: front))))
  | name {ns : List Nat} (h : text.toList = '$' :: ns.map symbol) (hns : ∀ n ∈ ns, n < 64) :
      Reads text (.ok (octets ns))

variable {text : String}

theorem decode_of_toList {symbols : List Char} (h : text.toList = '$' :: symbols) :
    decode text = (values 1 symbols).map octets := by
  simp only [decode, h]

theorem Reads.decode_eq {outcome : Except Js64Error Bytes} (h : Reads text outcome) :
    decode text = outcome := by
  cases h with
  | empty h => rw [h]; rfl
  | @unmarked c rest h hc =>
    rw [decode, h]
    split
    · next heq => cases heq
    · next heq => exact absurd (List.cons.inj heq).1 hc
    · rfl
  | foreign h hfront hc =>
    rw [List.cons_append] at h
    rw [decode_of_toList h, values_foreign 1 hfront hc]
    rfl
  | name h hns =>
    rw [decode_of_toList h, values_symbols 1 _ hns]
    rfl

/-- Some symbols are all in the alphabet, or there is a first one that is not. -/
theorem exists_first_foreign (symbols : List Char) :
    (∃ ns : List Nat, symbols = ns.map symbol ∧ ∀ n ∈ ns, n < 64) ∨
      ∃ front c rest, symbols = front ++ c :: rest ∧ (∀ x ∈ front, x ∈ alphabet) ∧
        c ∉ alphabet := by
  induction symbols with
  | nil => exact .inl ⟨[], rfl, by simp⟩
  | cons c cs ih =>
    cases hv : value? c with
    | none => exact .inr ⟨[], c, cs, rfl, by simp, value?_eq_none.mp hv⟩
    | some n =>
      obtain ⟨hn, rfl⟩ := lt_of_value? hv
      rcases ih with ⟨ns, rfl, hns⟩ | ⟨front, d, rest, rfl, hfront, hd⟩
      · exact .inl ⟨n :: ns, rfl, List.forall_mem_cons.mpr ⟨hn, hns⟩⟩
      · have hmem : symbol n ∈ alphabet := List.mem_of_getElem? (value?_eq_some.mp hv)
        exact .inr ⟨symbol n :: front, d, rest, rfl, List.forall_mem_cons.mpr ⟨hmem, hfront⟩, hd⟩

theorem all_mem_alphabet_iff {symbols : List Char} :
    (∀ c ∈ symbols, c ∈ alphabet) ↔
    ∃ ns : List Nat, symbols = ns.map symbol ∧ ∀ n ∈ ns, n < 64 := by
  constructor
  · intro h
    rcases exists_first_foreign symbols with hns | ⟨front, c, rest, rfl, _, hc⟩
    · exact hns
    · exact absurd (h c (by simp)) hc
  · rintro ⟨ns, rfl, hns⟩ c hc
    obtain ⟨n, hn, rfl⟩ := List.mem_map.mp hc
    exact List.mem_of_getElem? (alphabet_getElem? n (hns n hn))

theorem reads_decode (text : String) : Reads text (decode text) := by
  have hreads : ∃ outcome, Reads text outcome := by
    cases h : text.toList with
    | nil => exact ⟨_, .empty (String.toList_eq_nil_iff.mp h)⟩
    | cons c symbols =>
      by_cases hc : c = '$'
      · subst hc
        rcases exists_first_foreign symbols with ⟨ns, rfl, hns⟩ | ⟨front, d, rest, rfl, hfront, hd⟩
        · exact ⟨_, .name h hns⟩
        · exact ⟨_, .foreign h hfront hd⟩
      · exact ⟨_, .unmarked h hc⟩
  obtain ⟨outcome, h⟩ := hreads
  rw [h.decode_eq]
  exact h

theorem reads_iff {outcome : Except Js64Error Bytes} :
    Reads text outcome ↔ decode text = outcome :=
  ⟨Reads.decode_eq, fun h => h ▸ reads_decode text⟩

/-! ## The texts of bytes -/

/-- Symbols that are written for some bytes: there is none too many, and of the last one the high
bits that fill no byte are zero. -/
def Canonical (symbols : List Char) : Prop :=
  symbols.length % 4 ≠ 1 ∧
    ∀ c ∈ symbols.getLast?, ∀ n, alphabet[n]? = some c → n < 2 ^ (6 - 6 * symbols.length % 8)

theorem canonical_map_symbol {ns : List Nat} (h : ∀ n ∈ ns, n < 64) :
    Canonical (ns.map symbol) ↔ Filled ns := by
  have hlast : ∀ n ∈ ns.getLast?, ∀ m, alphabet[m]? = some (symbol n) ↔ m = n := by
    intro n hn m
    rw [← value?_eq_some, value?_symbol n (h n (List.mem_of_getLast? hn)),
      Option.some.injEq, eq_comm]
  unfold Canonical Filled
  rw [List.length_map, List.getLast?_map]
  refine and_congr_right fun _ => ?_
  cases hns : ns.getLast? with
  | none => simp
  | some n => simp [hlast n hns]

theorem encode_octets_iff {ns : List Nat} (h : text.toList = '$' :: ns.map symbol)
    (hns : ∀ n ∈ ns, n < 64) : encode (octets ns) = text ↔ Canonical (ns.map symbol) := by
  have hinj :
      ∀ {ms : List Nat}, (∀ n ∈ ms, n < 64) → (ms.map symbol = ns.map symbol ↔ ms = ns) := by
    intro ms hms
    refine ⟨fun heq => ?_, fun heq => heq ▸ rfl⟩
    have hvalues := values_symbols 0 ms hms
    rw [heq, values_symbols 0 ns hns, Except.ok.injEq] at hvalues
    exact hvalues.symm
  rw [← String.toList_inj, h, encode, String.toList_ofList, List.cons.injEq, eq_self, true_and,
    hinj (sextets_lt _), sextets_octets_iff ns hns, canonical_map_symbol hns]

/-- A text is read exactly if it is a dollar sign and symbols of the alphabet. It is refused as
empty if it is, for the missing sign if it starts with another character, and else at the byte
offset of its first character that is no symbol. The symbols are read as as many bytes as they fill,
and the name of these is the text again just if the symbols are canonical: there is none too many,
and the high bits of the last one that fill no byte are zero. Different bytes have different names,
and the names of bytes are all the texts with canonical symbols. -/
theorem reads_exactly_its_language (text : String) :
    ((∃ bytes, decode text = .ok bytes) ↔
      ∃ symbols, text.toList = '$' :: symbols ∧ ∀ c ∈ symbols, c ∈ alphabet) ∧
    (decode text = .error .empty ↔ text = "") ∧
    (decode text = .error .missingSentinel ↔ ∃ c rest, text.toList = c :: rest ∧ c ≠ '$') ∧
    (∀ offset, decode text = .error (.invalidSymbol offset) ↔
      ∃ front c rest, text.toList = '$' :: front ++ c :: rest ∧ (∀ x ∈ front, x ∈ alphabet) ∧
        c ∉ alphabet ∧ offset = width ('$' :: front)) ∧
    (∀ symbols bytes, text.toList = '$' :: symbols → decode text = .ok bytes →
      bytes.length = 6 * symbols.length / 8 ∧ (encode bytes = text ↔ Canonical symbols)) ∧
    Function.Injective encode ∧
    ((∃ bytes, encode bytes = text) ↔
      ∃ symbols, text.toList = '$' :: symbols ∧ (∀ c ∈ symbols, c ∈ alphabet) ∧
        Canonical symbols) := by
  refine ⟨⟨?_, ?_⟩, ⟨?_, ?_⟩, ⟨?_, ?_⟩, fun offset => ⟨?_, ?_⟩, ?_, ?_, ⟨?_, ?_⟩⟩
  · rintro ⟨bytes, hbytes⟩
    cases reads_iff.mpr hbytes with
    | name h hns => exact ⟨_, h, all_mem_alphabet_iff.mpr ⟨_, rfl, hns⟩⟩
  · rintro ⟨symbols, h, hsymbols⟩
    obtain ⟨ns, rfl, hns⟩ := all_mem_alphabet_iff.mp hsymbols
    exact ⟨_, (Reads.name h hns).decode_eq⟩
  · intro hempty
    cases reads_iff.mpr hempty with
    | empty h => exact h
  · intro h
    exact (Reads.empty h).decode_eq
  · intro hmissing
    cases reads_iff.mpr hmissing with
    | unmarked h hc => exact ⟨_, _, h, hc⟩
  · rintro ⟨c, rest, h, hc⟩
    exact (Reads.unmarked h hc).decode_eq
  · intro hinvalid
    cases reads_iff.mpr hinvalid with
    | foreign h hfront hc => exact ⟨_, _, _, h, hfront, hc, rfl⟩
  · rintro ⟨front, c, rest, h, hfront, hc, rfl⟩
    exact (Reads.foreign h hfront hc).decode_eq
  · intro symbols bytes h hbytes
    cases reads_iff.mpr hbytes with
    | name hns hlt =>
      obtain rfl : symbols = _ := (List.cons.inj (h.symm.trans hns)).2
      rw [length_octets, List.length_map]
      exact ⟨rfl, encode_octets_iff h hlt⟩
  · exact fun _ _ => encode_injective
  · rintro ⟨bytes, rfl⟩
    cases reads_iff.mpr (decode_encode bytes) with
    | name h hns =>
      exact ⟨_, h, all_mem_alphabet_iff.mpr ⟨_, rfl, hns⟩, (encode_octets_iff h hns).mp rfl⟩
  · rintro ⟨symbols, h, hsymbols, hcanonical⟩
    obtain ⟨ns, rfl, hns⟩ := all_mem_alphabet_iff.mp hsymbols
    exact ⟨octets ns, (encode_octets_iff h hns).mpr hcanonical⟩

/-- One symbol alone fills no byte, and the last of two may have bits too many. -/
example : (decode "$0").toOption = some [] ∧ (decode "$f5").toOption = some [0xAB] ∧
    encode [0xAB] = "$f1" := by decide

end LazyConfig.Js64
