-- The cursor reads exactly the encodings of characters. A move passes over the bytes that continue
-- a character, whatever was read, so a walk over a text reads all its bytes just when it is valid.
-- Main statement: what the cursor reads at each offset, what a walk reads, and where moving forward
-- and backward undo each other.
import LazyConfig.Proofs.Text.Utf8
import LazyConfig.Text.Scanner
import Mathlib.Data.List.TakeWhile

namespace LazyConfig.Scanner

open Utf8 (isContinuation encodeChars)

/-! ## The character under the cursor -/

theorem current_eq_some (s : Scanner) (c : Char) :
    s.current = .ok (some c) ↔ String.utf8EncodeChar c <+: s.after := by
  unfold current
  split
  · next h => simp [h]
  · next b after h =>
    rw [h, ← @Utf8.decodeFirst_eq_ok s.offset]
    cases Utf8.decodeFirst s.offset b after <;> simp [Except.map]

theorem exists_of_current {s : Scanner} {c : Char} (h : s.current = .ok (some c)) :
    ∃ b tail rest, String.utf8EncodeChar c = b :: tail ∧ (∀ b' ∈ tail, isContinuation b' = true) ∧
      s.after = b :: (tail ++ rest) := by
  obtain ⟨b, tail, lead, hbytes, henc⟩ := Utf8.exists_encodes c
  obtain ⟨rest, hrest⟩ := (current_eq_some s c).mp h
  rw [hbytes] at hrest
  exact ⟨b, tail, rest, hbytes, henc.continues, hrest.symm⟩

/-! ## Moves -/

variable {passed after : Bytes}

/-- The bytes start a character, or there are none. -/
def OnBoundary (bytes : Bytes) : Prop := ∀ b ∈ bytes.head?, isContinuation b = false

theorem settleForward_passed (hpassed : ∀ b ∈ passed, isContinuation b = true)
    (hafter : OnBoundary after) (begin : Nat) (before : Bytes) :
    settleForward ⟨begin, before, passed ++ after⟩ = ⟨begin, passed.reverse ++ before, after⟩ := by
  have hnone : after.takeWhile isContinuation = [] := by
    cases after with
    | nil => rfl
    | cons b after => simp [hafter b rfl]
  have hall : after.dropWhile isContinuation = after := by
    cases after with
    | nil => rfl
    | cons b after => simp [hafter b rfl]
  rw [settleForward, List.takeWhile_append_of_pos hpassed, List.dropWhile_append_of_pos hpassed,
    hnone, hall, List.append_nil]

theorem settleBackward_passed (hpassed : ∀ b ∈ passed, isContinuation b = true) (begin : Nat)
    (before after : Bytes) :
    settleBackward begin (passed ++ before) after =
      settleBackward begin before (passed.reverse ++ after) := by
  induction passed generalizing after with
  | nil => rfl
  | cons b passed ih =>
    obtain ⟨hb, hpassed⟩ := List.forall_mem_cons.mp hpassed
    rw [List.cons_append, settleBackward, if_pos hb, ih hpassed, List.reverse_cons,
      List.append_assoc]
    rfl

/-- Back from where a character ends the cursor is where it starts. -/
theorem retreat_advance {b : UInt8} (hb : isContinuation b = false) (begin : Nat)
    (before after : Bytes) :
    (Scanner.mk begin before (b :: after)).advance.retreat = ⟨begin, before, b :: after⟩ := by
  have hpassed : ∀ b' ∈ (after.takeWhile isContinuation).reverse, isContinuation b' = true :=
    fun b' hb' => List.mem_takeWhile_imp (List.mem_reverse.mp hb')
  show settleBackward begin ((after.takeWhile isContinuation).reverse ++ b :: before)
    (after.dropWhile isContinuation) = _
  rw [settleBackward_passed hpassed, settleBackward, if_neg (by simp [hb]), List.reverse_reverse,
    List.takeWhile_append_dropWhile]

/-- Forth from where a character starts the cursor is where it ends. -/
theorem advance_retreat {before : Bytes} (hafter : OnBoundary after)
    (h : before ≠ [] ∨ after = []) (begin : Nat) :
    (Scanner.mk begin before after).retreat.advance = ⟨begin, before, after⟩ := by
  have hpassed : ∀ b ∈ before.takeWhile isContinuation, isContinuation b = true :=
    fun b hb => List.mem_takeWhile_imp hb
  have hback := settleBackward_passed hpassed begin (before.dropWhile isContinuation) after
  rw [List.takeWhile_append_dropWhile] at hback
  rw [retreat, hback]
  cases hrest : before.dropWhile isContinuation with
  | nil =>
    -- No character starts before the cursor, which has gone back to the start.
    have hall : before.takeWhile isContinuation = before := by
      have happend := @List.takeWhile_append_dropWhile _ isContinuation before
      rwa [hrest, List.append_nil] at happend
    rw [hall] at hpassed ⊢
    rw [settleBackward]
    cases hrev : before.reverse with
    | nil =>
      obtain rfl := List.reverse_eq_nil_iff.mp hrev
      rw [h.resolve_left (by simp)]
      rfl
    | cons b passed =>
      obtain rfl : before = (b :: passed).reverse := by rw [← hrev, List.reverse_reverse]
      have hpassed' : ∀ b' ∈ passed, isContinuation b' = true :=
        fun b' hb' => hpassed b' (by simp [hb'])
      simpa [advance] using settleForward_passed hpassed' hafter begin [b]
  | cons b earlier =>
    have hb : isContinuation b = false := by
      have := List.head?_dropWhile_not isContinuation before
      simpa [hrest] using this
    have hpassed' : ∀ b' ∈ (before.takeWhile isContinuation).reverse, isContinuation b' = true :=
      fun b' hb' => hpassed b' (List.mem_reverse.mp hb')
    have hmoved := settleForward_passed hpassed' hafter begin (b :: earlier)
    rw [settleBackward, if_neg (by simp [hb])]
    show settleForward _ = _
    rw [hmoved, List.reverse_reverse, ← hrest, List.takeWhile_append_dropWhile]

/-! ## A walk -/

theorem length_advance_lt {s : Scanner} (h : s.after ≠ []) :
    s.advance.after.length < s.after.length := by
  unfold advance
  split
  · next hnil => exact absurd hnil h
  · next b after hcons =>
    rw [hcons, List.length_cons]
    exact Nat.lt_succ_of_le (List.dropWhile_suffix _).length_le

/-- The characters from the cursor on with their offsets, as they are read one by one. -/
def walk (s : Scanner) : Except DecodeError (List (Nat × Char)) :=
  match _h : s.current with
  | .error e => .error e
  | .ok none => .ok []
  | .ok (some c) => s.advance.walk.map ((s.offset, c) :: ·)
  termination_by s.after.length
  decreasing_by
    obtain ⟨b, tail, rest, -, -, hafter⟩ := exists_of_current _h
    exact length_advance_lt (by simp [hafter])

/-- Characters with their offsets, of which the first is `offset`. -/
def located (offset : Nat) : List Char → List (Nat × Char)
  | [] => []
  | c :: cs => (offset, c) :: located (offset + c.utf8Size) cs

theorem onBoundary_encodeChars (cs : List Char) : OnBoundary (encodeChars cs) := by
  cases cs with
  | nil => simp [Utf8.encodeChars_nil, OnBoundary]
  | cons c cs =>
    obtain ⟨b, tail, lead, hbytes, henc⟩ := Utf8.exists_encodes c
    simp [Utf8.encodeChars_cons, hbytes, OnBoundary, henc.starts]

/-- On a valid text the walk reads all characters. -/
theorem walk_encodeChars (begin : Nat) (before : Bytes) (cs : List Char) :
    (Scanner.mk begin before (encodeChars cs)).walk =
      .ok (located (begin + before.length) cs) := by
  induction cs generalizing before with
  | nil =>
    unfold walk
    simp [current, Utf8.encodeChars_nil, located]
  | cons c cs ih =>
    obtain ⟨b, tail, lead, hbytes, henc⟩ := Utf8.exists_encodes c
    have hafter : encodeChars (c :: cs) = b :: (tail ++ encodeChars cs) := by
      rw [Utf8.encodeChars_cons, hbytes, List.cons_append]
    have hcurrent : (Scanner.mk begin before (encodeChars (c :: cs))).current = .ok (some c) :=
      (current_eq_some _ _).mpr ⟨_, (Utf8.encodeChars_cons c cs).symm⟩
    have hadvance : (Scanner.mk begin before (encodeChars (c :: cs))).advance =
        ⟨begin, tail.reverse ++ b :: before, encodeChars cs⟩ := by
      rw [hafter]
      exact settleForward_passed henc.continues (onBoundary_encodeChars cs) begin (b :: before)
    have hsize : c.utf8Size = tail.length + 1 := by
      rw [← String.length_utf8EncodeChar, hbytes, List.length_cons]
    have hoffset : begin + (tail.reverse ++ b :: before).length =
        begin + before.length + c.utf8Size := by
      rw [List.length_append, List.length_reverse, List.length_cons, hsize]
      omega
    rw [walk]
    split
    · next h => rw [hcurrent] at h; cases h
    · next h => rw [hcurrent] at h; cases h
    · next d h =>
      rw [hcurrent] at h
      cases h
      rw [hadvance, ih, hoffset]
      rfl

/-- How many bytes a walk has read. -/
def bytesRead (found : List (Nat × Char)) : Nat := Utf8.width (found.map Prod.snd)

theorem bytesRead_located (offset : Nat) (cs : List Char) :
    bytesRead (located offset cs) = Utf8.width cs := by
  induction cs generalizing offset with
  | nil => rfl
  | cons c cs ih =>
    rw [Utf8.width_cons, ← ih (offset + c.utf8Size)]
    simp [bytesRead, located]

/-- A walk reads no byte twice, and if it reads all of them, they are a valid text. -/
theorem bytesRead_le {s : Scanner} {found : List (Nat × Char)} (h : s.walk = .ok found) :
    bytesRead found ≤ s.after.length ∧
      (bytesRead found = s.after.length → ∃ cs, s.after = encodeChars cs) := by
  fun_induction walk s generalizing found with
  | case1 => cases h
  | case2 s hcurrent =>
    cases h
    refine ⟨Nat.zero_le _, fun hlength => ⟨[], ?_⟩⟩
    exact List.length_eq_zero_iff.mp hlength.symm
  | case3 s c hcurrent ih =>
    cases hmore : s.advance.walk with
    | error e => rw [hmore] at h; cases h
    | ok more =>
      rw [hmore] at h
      cases h
      obtain ⟨hle, hall⟩ := ih hmore
      obtain ⟨b, tail, rest, hbytes, htail, hafter⟩ := exists_of_current hcurrent
      have hsize : c.utf8Size = tail.length + 1 := by
        rw [← String.length_utf8EncodeChar, hbytes, List.length_cons]
      have hread : bytesRead ((s.offset, c) :: more) = c.utf8Size + bytesRead more := by
        simp [bytesRead]
      have hnext : s.advance.after = rest.dropWhile isContinuation := by
        simp [advance, hafter, settleForward, List.dropWhile_append_of_pos htail]
      rw [hnext] at hle hall
      have hsuffix : rest.dropWhile isContinuation <:+ rest := List.dropWhile_suffix _
      have hlength := hsuffix.length_le
      rw [hread, hafter, List.length_cons, List.length_append, hsize]
      refine ⟨by omega, fun heq => ?_⟩
      have hrest : rest.dropWhile isContinuation = rest := hsuffix.eq_of_length (by omega)
      rw [hrest] at hall
      obtain ⟨cs, rfl⟩ := hall (by omega)
      exact ⟨c :: cs, by rw [Utf8.encodeChars_cons, hbytes, List.cons_append]⟩

/-! ## A cursor over all of some bytes -/

theorem ofBytes_eq (bytes : Bytes) :
    ofBytes bytes = settleForward ⟨0, [], bytes⟩ := by
  simp [ofBytes, ofWindow]

theorem window_ofBytes (bytes : Bytes) : (ofBytes bytes).window = bytes := by
  rw [ofBytes_eq, window_settleForward]
  rfl

theorem seek_ofBytes (bytes : Bytes) (n : Nat) :
    (ofBytes bytes).seek n = ⟨0, (bytes.take n).reverse, bytes.drop n⟩ := by
  rw [seek, window_ofBytes, ofBytes_eq]
  rfl

theorem ofBytes_encodeChars (cs : List Char) :
    ofBytes (encodeChars cs) = ⟨0, [], encodeChars cs⟩ := by
  rw [ofBytes_eq]
  exact settleForward_passed (List.forall_mem_nil _) (onBoundary_encodeChars cs) 0 []

theorem walk_ofBytes (cs : List Char) : (ofBytes (encodeChars cs)).walk = .ok (located 0 cs) := by
  rw [ofBytes_encodeChars, walk_encodeChars]
  rfl

/-- A walk reads all bytes exactly if they are a valid text. -/
theorem exists_walk_iff (bytes : Bytes) :
    (∃ found, (ofBytes bytes).walk = .ok found ∧ bytesRead found = bytes.length) ↔
      ∃ cs, bytes = encodeChars cs := by
  constructor
  · rintro ⟨found, hfound, hread⟩
    obtain ⟨hle, hall⟩ := bytesRead_le hfound
    have hafter : (ofBytes bytes).after = bytes.dropWhile isContinuation := by
      rw [ofBytes_eq]
      rfl
    have hsuffix : bytes.dropWhile isContinuation <:+ bytes := List.dropWhile_suffix _
    have hlength := hsuffix.length_le
    rw [hafter] at hle hall
    have hbytes := hsuffix.eq_of_length (by omega)
    rw [hbytes] at hall
    exact hall hread
  · rintro ⟨cs, rfl⟩
    exact ⟨_, walk_ofBytes cs, by rw [bytesRead_located, Utf8.length_encodeChars]⟩

/-- On any bytes the cursor reads a character at an offset exactly if the encoding of the character
stands there. A walk from the start to the end, in which the characters that are read take up all
the bytes, exists exactly if the bytes are a valid text, and then it reads the characters of the
text at their offsets. From a byte that starts a character moving back undoes moving on, and from
each later such byte, or from the end, moving on undoes moving back. -/
theorem scanner_reads_utf8 (bytes : Bytes) :
    let s := ofBytes bytes
    (∀ n ≤ bytes.length, (s.seek n).offset = n ∧
      ∀ c, (s.seek n).current = .ok (some c) ↔ String.utf8EncodeChar c <+: bytes.drop n) ∧
    ((∃ found, s.walk = .ok found ∧ bytesRead found = bytes.length) ↔
      ∃ cs, bytes = encodeChars cs) ∧
    (∀ cs, bytes = encodeChars cs → s.walk = .ok (located 0 cs)) ∧
    (∀ n b, bytes[n]? = some b → isContinuation b = false →
      (s.seek n).advance.retreat = s.seek n) ∧
    (∀ n ≤ bytes.length, 0 < n ∨ n = bytes.length →
      (∀ b, bytes[n]? = some b → isContinuation b = false) →
      (s.seek n).retreat.advance = s.seek n) := by
  dsimp only
  refine ⟨fun n hn => ⟨?_, fun c => ?_⟩, exists_walk_iff bytes, ?_, fun n b hb hstart => ?_,
    fun n hn hlater hstart => ?_⟩
  · rw [seek_ofBytes, offset, List.length_reverse, List.length_take, Nat.min_eq_left hn,
      Nat.zero_add]
  · rw [seek_ofBytes, current_eq_some]
  · rintro cs rfl
    exact walk_ofBytes cs
  · obtain ⟨hn, rfl⟩ := List.getElem?_eq_some_iff.mp hb
    rw [seek_ofBytes, List.drop_eq_getElem_cons hn]
    exact retreat_advance hstart 0 _ _
  · rw [seek_ofBytes]
    refine advance_retreat (fun b hb => hstart b ?_) ?_ 0
    · rwa [List.head?_drop] at hb
    · rcases hlater with hpos | rfl
      · left
        rw [ne_eq, List.reverse_eq_nil_iff, List.take_eq_nil_iff]
        rintro (rfl | rfl)
        · exact absurd hpos (by decide)
        · exact absurd (Nat.lt_of_lt_of_le hpos hn) (by simp)
      · exact .inr List.drop_length

/-- A stray byte is passed over unseen, so the characters take up fewer bytes than there are. -/
example : (ofBytes [0x61, 0x80, 0x62]).walk = .ok [(0, 'a'), (2, 'b')] := by decide +kernel

end LazyConfig.Scanner
