-- Bytes and their names in the js64 alphabet.
-- Main statement: different bytes have different names, and no name has a dot in it.
import LazyConfig.Codec.Js64

namespace LazyConfig.Js64

/-! ## The alphabet -/

theorem value?_symbol : ∀ n < 64, value? (symbol n) = some n := by decide

theorem symbol_ne_dot : ∀ n < 64, symbol n ≠ '.' := by decide

theorem sextets_lt : (bytes : Bytes) → ∀ n ∈ sextets bytes, n < 64
  | [] => by simp [sextets]
  | [a] => by
    have ha := a.toNat_lt
    simp only [sextets, List.forall_mem_cons]
    exact ⟨by omega, by omega, by simp⟩
  | [a, b] => by
    have ha := a.toNat_lt
    have hb := b.toNat_lt
    simp only [sextets, List.forall_mem_cons]
    exact ⟨by omega, by omega, by omega, by simp⟩
  | a :: b :: c :: rest => by
    have ha := a.toNat_lt
    have hb := b.toNat_lt
    have hc := c.toNat_lt
    simp only [sextets, List.forall_mem_cons]
    exact ⟨by omega, by omega, by omega, by omega, sextets_lt rest⟩

/-! ## Reading what was written -/

theorem ofNat_eq_of_mod {a : UInt8} {n : Nat} (h : n % 256 = a.toNat) : UInt8.ofNat n = a := by
  apply UInt8.toNat.inj
  rw [UInt8.toNat_ofNat']
  exact h

theorem octets_sextets : (bytes : Bytes) → octets (sextets bytes) = bytes
  | [] => rfl
  | [a] => by
    have ha := a.toNat_lt
    simp only [sextets, octets, List.cons.injEq, and_true]
    exact ofNat_eq_of_mod (by omega)
  | [a, b] => by
    have ha := a.toNat_lt
    have hb := b.toNat_lt
    simp only [sextets, octets, List.cons.injEq, and_true]
    exact ⟨ofNat_eq_of_mod (by omega), ofNat_eq_of_mod (by omega)⟩
  | a :: b :: c :: rest => by
    have ha := a.toNat_lt
    have hb := b.toNat_lt
    have hc := c.toNat_lt
    simp only [sextets, octets, List.cons.injEq]
    exact ⟨ofNat_eq_of_mod (by omega), ofNat_eq_of_mod (by omega), ofNat_eq_of_mod (by omega),
      octets_sextets rest⟩

theorem values_symbols (offset : Nat) (ns : List Nat) (h : ∀ n ∈ ns, n < 64) :
    values offset (ns.map symbol) = .ok ns := by
  induction ns generalizing offset with
  | nil => rfl
  | cons n ns ih =>
    obtain ⟨hn, hns⟩ := List.forall_mem_cons.mp h
    rw [List.map_cons, values, value?_symbol n hn, ih (offset + 1) hns]
    rfl

/-- What is written is read again. -/
theorem decode_encode (bytes : Bytes) : decode (encode bytes) = .ok bytes := by
  have hvalues := values_symbols 1 (sextets bytes) (sextets_lt bytes)
  simp only [decode, encode, String.toList_ofList, hvalues, Except.map, octets_sextets]

theorem encode_injective {bytes bytes' : Bytes} (h : encode bytes = encode bytes') :
    bytes = bytes' := by
  have hdecode := decode_encode bytes
  rw [h, decode_encode, Except.ok.injEq] at hdecode
  exact hdecode.symm

theorem dot_not_mem_encode (bytes : Bytes) : '.' ∉ (encode bytes).toList := by
  rw [encode, String.toList_ofList]
  intro h
  rcases List.mem_cons.mp h with h | h
  · exact absurd h (by decide)
  · obtain ⟨n, hn, hdot⟩ := List.mem_map.mp h
    exact symbol_ne_dot n (sextets_lt bytes n hn) hdot

end LazyConfig.Js64
