-- Where the cursor can get to. Moving on passes over all bytes that continue a character, and
-- moving back stops at the first byte that continues none, or at the start of the window, which may
-- be inside of a character.
-- Main statement: the cursor is always at the end or where a character starts exactly if the start
-- of the window is such a place. It is never elsewhere but at that start.
import LazyConfig.Proofs.Text.Scanner

namespace LazyConfig

/-! ## Where characters start -/

namespace Utf8

/-- A character of the text starts at the offset, or the text ends there. -/
def Starts (cs : List Char) (n : Nat) : Prop := ∃ front back, cs = front ++ back ∧ n = width front

/-- Among the bytes of a text, exactly those that continue no character start one. -/
theorem starts_iff {cs : List Char} {n : Nat} (hn : n ≤ width cs) :
    Starts cs n ↔ Scanner.OnBoundary ((encodeChars cs).drop n) := by
  constructor
  · rintro ⟨front, back, rfl, rfl⟩
    rw [encodeChars_append, ← length_encodeChars, List.drop_left]
    exact Scanner.onBoundary_encodeChars back
  · intro h
    induction cs generalizing n with
    | nil => exact ⟨[], [], rfl, Nat.le_zero.mp hn⟩
    | cons c cs ih =>
      obtain ⟨b, tail, lead, hbytes, henc⟩ := exists_encodes c
      have hsize : c.utf8Size = tail.length + 1 := by
        rw [← String.length_utf8EncodeChar, hbytes, List.length_cons]
      rw [width_cons] at hn
      rw [encodeChars_cons, hbytes, List.cons_append] at h
      cases n with
      | zero => exact ⟨[], c :: cs, rfl, rfl⟩
      | succ n =>
        rw [List.drop_succ_cons] at h
        by_cases hlt : n < tail.length
        · -- The offset is inside of the first character.
          have hdrop : (tail ++ encodeChars cs).drop n =
              tail[n] :: (tail.drop (n + 1) ++ encodeChars cs) := by
            rw [List.drop_append_of_le_length (Nat.le_of_lt hlt), List.drop_eq_getElem_cons hlt,
              List.cons_append]
          rw [hdrop] at h
          have hnot := h _ rfl
          rw [henc.continues _ (List.getElem_mem hlt)] at hnot
          cases hnot
        · obtain ⟨k, rfl⟩ := Nat.exists_eq_add_of_le (Nat.not_lt.mp hlt)
          rw [List.drop_append, List.drop_eq_nil_of_le (Nat.le_add_right _ _), List.nil_append,
            Nat.add_sub_cancel_left] at h
          obtain ⟨front, back, rfl, rfl⟩ := ih (by omega) h
          exact ⟨c :: front, back, rfl, by rw [width_cons]; omega⟩

end Utf8

namespace Scanner

open Utf8 (isContinuation encodeChars width Starts)

/-! ## Moves -/

/-- What a client may do with a cursor. It returns to a mark by the number of marks before it. -/
inductive Move where
  | advance
  | retreat
  | save
  | restore (i : Nat)
  | eat (c : Char)
  | eatText (text : String)
  | peekNext

/-- The cursor and the marks after a move. A mark that is not there is not returned to. -/
def Move.apply : Scanner × List Mark → Move → Scanner × List Mark
  | (s, marks), advance => (s.advance, marks)
  | (s, marks), retreat => (s.retreat, marks)
  | (s, marks), save => (s, marks ++ [s.save])
  | (s, marks), restore i => ((marks[i]?.map s.restore).getD s, marks)
  | (s, marks), eat c => ((s.eat c).2, marks)
  | (s, marks), eatText text => ((s.eatText text).2, marks)
  | (s, marks), peekNext => (s, marks)

/-- The cursor after moves. -/
def perform (s : Scanner) (moves : List Move) : Scanner := (moves.foldl Move.apply (s, [])).1

/-! ## One window -/

/-- The cursors are in the same window. -/
structure SameWindow (s s' : Scanner) : Prop where
  begin_eq : s.begin = s'.begin
  window_eq : s.window = s'.window

theorem SameWindow.trans {s s' s'' : Scanner} (h : SameWindow s s') (h' : SameWindow s' s'') :
    SameWindow s s'' := ⟨h.begin_eq.trans h'.begin_eq, h.window_eq.trans h'.window_eq⟩

theorem SameWindow.restore {s s' : Scanner} (h : SameWindow s s') (m : Mark) :
    s.restore m = s'.restore m := by
  simp only [Scanner.restore, seek, h.begin_eq, h.window_eq]

theorem sameWindow_advance (s : Scanner) : SameWindow s.advance s := by
  refine ⟨?_, window_advance s⟩
  unfold advance
  split <;> rfl

theorem begin_settleBackward (begin : Nat) (before after : Bytes) :
    (settleBackward begin before after).begin = begin := by
  induction before generalizing after with
  | nil => rfl
  | cons b before ih =>
    unfold settleBackward
    split
    · exact ih _
    · rfl

theorem sameWindow_retreat (s : Scanner) : SameWindow s.retreat s :=
  ⟨begin_settleBackward _ _ _, window_retreat s⟩

/-! ## Places that moves lead to -/

/-- The cursor is at the end or at a byte that continues no character, or at the start. -/
def Rests (s : Scanner) : Prop := OnBoundary s.after ∨ s.before = []

/-- The first of the bytes after those that continue a character continues none. -/
theorem onBoundary_dropWhile (bytes : Bytes) : OnBoundary (bytes.dropWhile isContinuation) := by
  intro b hb
  have hnot := List.head?_dropWhile_not isContinuation bytes
  rw [hb] at hnot
  simpa using hnot

theorem onBoundary_advance (s : Scanner) : OnBoundary s.advance.after := by
  unfold advance
  split
  · next h =>
    rw [h]
    intro b hb
    cases hb
  · exact onBoundary_dropWhile _

theorem rests_settleBackward (begin : Nat) (before after : Bytes) :
    Rests (settleBackward begin before after) := by
  induction before generalizing after with
  | nil => exact .inr rfl
  | cons b before ih =>
    unfold settleBackward
    split
    · exact ih _
    · next hb =>
      refine .inl fun b' hb' => ?_
      cases hb'
      simpa using hb

theorem eat_eq (s : Scanner) (c : Char) : (s.eat c).2 = s ∨ (s.eat c).2 = s.advance := by
  unfold eat
  split
  · exact .inl rfl
  · split
    · exact .inr rfl
    · exact .inl rfl

/-- A cursor that has passed over characters has moved on, if it has moved. -/
theorem eatChars_keeps {P : Scanner → Prop} (hadvance : ∀ s, P s → P s.advance) {s : Scanner}
    (hs : P s) (cs : List Char) : P (s.eatChars cs).2 := by
  have heat : ∀ s c, P s → P (s.eat c).2 := by
    intro s c hs
    rcases eat_eq s c with h | h
    · rwa [h]
    · rw [h]
      exact hadvance s hs
  induction cs generalizing s with
  | nil => exact hs
  | cons c cs ih =>
    have hnext := heat s c hs
    unfold eatChars
    split
    · next next hc =>
      rw [hc] at hnext
      exact ih hnext
    · exact hnext

theorem eatText_keeps {P : Scanner → Prop} (hadvance : ∀ s, P s → P s.advance) {s : Scanner}
    (hs : P s) (text : String) : P (s.eatText text).2 := by
  have hchars := eatChars_keeps hadvance hs text.toList
  unfold eatText
  split
  · exact hs
  · exact hchars

/-- The cursor is in the window of another one, at a place to rest. -/
structure RestsIn (start s : Scanner) : Prop where
  same : SameWindow s start
  rests : Rests s

theorem RestsIn.advance {start s : Scanner} (h : RestsIn start s) : RestsIn start s.advance :=
  ⟨(sameWindow_advance s).trans h.same, .inl (onBoundary_advance s)⟩

/-- After any move the cursor rests in the window, and so it does if it returns to a mark. -/
theorem restsIn_apply {start : Scanner} {state : Scanner × List Mark}
    (hs : RestsIn start state.1) (hmarks : ∀ m ∈ state.2, RestsIn start (start.restore m))
    (move : Move) :
    RestsIn start (move.apply state).1 ∧
      ∀ m ∈ (move.apply state).2, RestsIn start (start.restore m) := by
  obtain ⟨s, marks⟩ := state
  cases move with
  | advance => exact ⟨hs.advance, hmarks⟩
  | retreat =>
    exact ⟨⟨(sameWindow_retreat s).trans hs.same, rests_settleBackward _ _ _⟩, hmarks⟩
  | save =>
    refine ⟨hs, fun m hm => ?_⟩
    rcases List.mem_append.mp hm with hm | hm
    · exact hmarks m hm
    · obtain rfl := List.mem_singleton.mp hm
      rw [← hs.same.restore, restore_save]
      exact hs
  | restore i =>
    refine ⟨?_, hmarks⟩
    show RestsIn start ((marks[i]?.map s.restore).getD s)
    cases hi : marks[i]? with
    | none => exact hs
    | some m =>
      rw [Option.map_some, Option.getD_some, hs.same.restore]
      exact hmarks m (List.mem_of_getElem? hi)
  | eat c =>
    refine ⟨?_, hmarks⟩
    show RestsIn start (s.eat c).2
    rcases eat_eq s c with h | h
    · rwa [h]
    · rw [h]
      exact hs.advance
  | eatText text =>
    exact ⟨eatText_keeps (P := RestsIn start) (fun _ => RestsIn.advance) hs text, hmarks⟩
  | peekNext => exact ⟨hs, hmarks⟩

theorem restsIn_perform {start : Scanner} (h : Rests start) (moves : List Move) :
    RestsIn start (start.perform moves) := by
  have hall : ∀ state : Scanner × List Mark, RestsIn start state.1 →
      (∀ m ∈ state.2, RestsIn start (start.restore m)) →
        RestsIn start (moves.foldl Move.apply state).1 := by
    induction moves with
    | nil => exact fun _ hs _ => hs
    | cons move later ih =>
      intro state hs hmarks
      obtain ⟨hs', hmarks'⟩ := restsIn_apply hs hmarks move
      exact ih _ hs' hmarks'
  exact hall (start, []) ⟨⟨rfl, rfl⟩, h⟩ (by simp)

/-! ## A window of a text -/

theorem window_ofWindow (bytes : Bytes) (begin stop : Nat) :
    (ofWindow bytes begin stop).window =
      (bytes.take (min stop bytes.length)).drop (min begin (min stop bytes.length)) :=
  window_settleForward _

theorem rests_ofWindow (bytes : Bytes) (begin stop : Nat) : Rests (ofWindow bytes begin stop) :=
  .inl (onBoundary_dropWhile _)

/-- Back from the first character that starts in a window, the cursor is at the start of the
window. -/
theorem before_retreat_ofWindow (bytes : Bytes) (begin stop : Nat) :
    (ofWindow bytes begin stop).retreat.before = [] := by
  have hpassed : ∀ {w : Bytes}, ∀ b ∈ (w.takeWhile isContinuation).reverse,
      isContinuation b = true :=
    fun b hb => List.mem_takeWhile_imp (List.mem_reverse.mp hb)
  rw [retreat]
  unfold ofWindow settleForward
  dsimp only
  rw [settleBackward_passed hpassed]
  rfl

/-- The cursor has the bytes before it up to the last one of the window. -/
theorem after_eq {s : Scanner} {bytes : Bytes} {last : Nat}
    (h : s.window = (bytes.take last).drop s.begin) :
    s.after = (bytes.take last).drop s.offset := by
  have hafter : s.after = s.window.drop s.before.length := by
    rw [window, ← List.length_reverse, List.drop_left]
  rw [hafter, h, List.drop_drop, offset]

theorem onBoundary_take_drop {bytes : Bytes} {n last : Nat} (h : n < last) :
    OnBoundary ((bytes.take last).drop n) ↔ OnBoundary (bytes.drop n) := by
  unfold OnBoundary
  rw [List.head?_drop, List.head?_drop, List.getElem?_take_of_lt h]

/-- Where a character starts, reading can only fail because the window ends inside of it. -/
theorem current_of_starts {cs : List Char} {s : Scanner} {last : Nat} {e : DecodeError}
    (hafter : s.after = ((encodeChars cs).take last).drop s.offset) (hstarts : Starts cs s.offset)
    (h : s.current = .error e) :
    e = .truncated s.offset ∧ ∃ front c back, cs = front ++ c :: back ∧ s.offset = width front ∧
      last < s.offset + c.utf8Size := by
  obtain ⟨front, back, rfl, hoffset⟩ := hstarts
  rw [hoffset, Utf8.encodeChars_append, List.drop_take, ← Utf8.length_encodeChars,
    List.drop_left] at hafter
  have hsome : s.after ≠ [] := by
    intro hnil
    rw [current, hnil] at h
    cases h
  cases back with
  | nil => simp [Utf8.encodeChars_nil] at hafter; exact absurd hafter hsome
  | cons c back =>
    obtain ⟨b, tail, lead, hbytes, henc⟩ := Utf8.exists_encodes c
    have hsize : c.utf8Size = tail.length + 1 := by
      rw [← String.length_utf8EncodeChar, hbytes, List.length_cons]
    rw [Utf8.length_encodeChars, ← hoffset] at hafter
    cases hleft : last - s.offset with
    | zero => rw [hleft, List.take_zero] at hafter; exact absurd hafter hsome
    | succ left =>
      rw [hleft, Utf8.encodeChars_cons, hbytes, List.cons_append, List.take_succ_cons] at hafter
      rw [current, hafter] at h
      by_cases hwhole : tail.length ≤ left
      · rw [List.take_append, List.take_of_length_le hwhole] at h
        dsimp only at h
        rw [Utf8.decodeFirst_of_encodes henc] at h
        cases h
      · have hcut : ((tail ++ encodeChars back).take left).take lead.extra = tail.take left := by
          rw [List.take_append_of_le_length (by omega), List.take_take, ← henc.length_eq,
            Nat.min_eq_right (by omega)]
        have hshort : (tail.take left).length < lead.extra := by
          rw [List.length_take, ← henc.length_eq]
          omega
        simp only [Utf8.decodeFirst, henc.lead_eq, hcut, if_pos hshort, Except.map,
          Except.error.injEq] at h
        exact ⟨h.symm, front, c, back, rfl, hoffset, by omega⟩

/-- The place is the end of the window, or a character of the text starts there. -/
def AtCharacter (cs : List Char) (last n : Nat) : Prop := n = last ∨ Starts cs n

/-- What every cursor in a window of a text keeps, from its first place to its last. -/
structure Held (cs : List Char) (first last : Nat) (s : Scanner) : Prop where
  first_le : first ≤ s.offset
  le_last : s.offset ≤ last
  place : AtCharacter cs last s.offset ∨ s.offset = first
  after_eq : s.after = ((encodeChars cs).take last).drop s.offset

/-- A cursor that rests in a window of a text has just the bytes of the window around it. -/
theorem held_of_restsIn {cs : List Char} {begin stop : Nat} {s : Scanner}
    (h : RestsIn (ofWindow (encodeChars cs) begin stop) s) :
    Held cs (min begin (min stop (width cs))) (min stop (width cs)) s := by
  obtain ⟨⟨hbegin, hwindow⟩, hrests⟩ := h
  rw [window_ofWindow, Utf8.length_encodeChars] at hwindow
  have hfirst : s.begin = min begin (min stop (width cs)) := by
    rw [hbegin, ← Utf8.length_encodeChars]
    rfl
  generalize hlast : min stop (width cs) = last at *
  have hoffset : s.offset = min begin last + s.before.length := by rw [offset, hfirst]
  have hafter : s.after = ((encodeChars cs).take last).drop s.offset :=
    after_eq (by rw [hwindow, hfirst])
  have hle : s.before.length ≤ last - min begin last := by
    have hlength : s.window.length = last - min begin last := by
      rw [hwindow, List.length_drop, List.length_take, Utf8.length_encodeChars,
        Nat.min_eq_left (by omega)]
    rw [window, List.length_append, List.length_reverse] at hlength
    omega
  refine ⟨by omega, by omega, ?_, hafter⟩
  rcases hrests with hboundary | hstart
  · left
    by_cases hend : s.offset = last
    · exact .inl hend
    · rw [hafter, onBoundary_take_drop (by omega)] at hboundary
      exact .inr ((Utf8.starts_iff (by omega)).mpr hboundary)
  · right
    rw [hoffset, hstart]
    rfl

/-- Where a character starts, reading fails only with one that is cut off, and at the end not at
all. -/
theorem Held.current_error {cs : List Char} {first last : Nat} {s : Scanner}
    (h : Held cs first last s) (hat : AtCharacter cs last s.offset) {e : DecodeError}
    (he : s.current = .error e) :
    e = .truncated s.offset ∧ ∃ front c back, cs = front ++ c :: back ∧ s.offset = width front ∧
      last < s.offset + c.utf8Size := by
  rcases hat with hend | hstarts
  · have hnil : s.after = [] := by
      rw [h.after_eq, hend, List.drop_eq_nil_of_le (by rw [List.length_take]; omega)]
    rw [current, hnil] at he
    cases he
  · exact current_of_starts h.after_eq hstarts he

theorem offset_retreat_ofWindow (bytes : Bytes) (begin stop : Nat) :
    (ofWindow bytes begin stop).retreat.offset = min begin (min stop bytes.length) := by
  rw [offset, before_retreat_ofWindow, (sameWindow_retreat _).begin_eq]
  rfl

/-- Take a window of a text, of which both ends may be inside of characters or too far, and any
moves of the cursor. It stays in the window and is at the end, where a character starts, or at the
start of the window. So it is always at one of the former two just if the start of the window is.
There reading can only fail with a character that the end of the window cuts off. -/
theorem cursor_stays_on_boundaries (cs : List Char) (begin stop : Nat) :
    let start : Scanner := ofWindow (encodeChars cs) begin stop
    let last := min stop (width cs)
    let first := min begin last
    ((∀ moves, AtCharacter cs last (start.perform moves).offset) ↔ AtCharacter cs last first) ∧
    ∀ moves,
      let s := start.perform moves
      first ≤ s.offset ∧ s.offset ≤ last ∧ (AtCharacter cs last s.offset ∨ s.offset = first) ∧
      (AtCharacter cs last s.offset → ∀ e, s.current = .error e →
        e = .truncated s.offset ∧ ∃ front c back, cs = front ++ c :: back ∧
          s.offset = width front ∧ last < s.offset + c.utf8Size) := by
  intro start last first
  have hheld (moves : List Move) : Held cs first last (start.perform moves) :=
    held_of_restsIn (restsIn_perform (rests_ofWindow _ begin stop) moves)
  refine ⟨⟨fun hall => ?_, fun hfirst moves => ?_⟩, fun moves => ?_⟩
  · have hback : (start.perform [.retreat]).offset = first := by
      show (ofWindow (encodeChars cs) begin stop).retreat.offset = _
      rw [offset_retreat_ofWindow, Utf8.length_encodeChars]
    exact hback ▸ hall [.retreat]
  · rcases (hheld moves).place with h | h
    · exact h
    · rwa [h]
  · have hs := hheld moves
    exact ⟨hs.first_le, hs.le_last, hs.place, fun hat e he => hs.current_error hat he⟩

/-- In the window that starts inside of the first character of a text, the cursor moves back into
that character, and there reading fails for another reason. -/
theorem cursor_gets_inside :
    let start := ofWindow (encodeChars ['é', '!']) 1 3
    start.offset = 2 ∧ start.current = .ok (some '!') ∧ (start.perform [.retreat]).offset = 1 ∧
      ¬ AtCharacter ['é', '!'] 3 1 ∧
      (start.perform [.retreat]).current = .error (.invalidLeadByte 1 0xA9) := by
  refine ⟨by decide, by decide, by decide, ?_, by decide⟩
  rintro (h | h)
  · cases h
  · rw [Utf8.starts_iff (by decide)] at h
    exact absurd (h 0xA9 (by decide)) (by decide)

end Scanner

end LazyConfig
