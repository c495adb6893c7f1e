-- What the limit of levels does. With one level more the same is read, unless reading was cut off
-- for want of a level, and it is cut off only where there are more tokens than levels. So from some
-- limit on nothing changes any more, and below it every limit cuts off.
-- Main statement: the limit is a threshold.
import LazyConfig.Proofs.Source.Outcomes
import Mathlib.Data.Nat.Find

namespace LazyConfig

/-- The fault is not about how deep an expression nests. -/
def Fault.Shallow (f : Fault) : Prop := ∀ depth limit, f.kind ≠ .tooDeep depth limit

namespace Grammar

/-! ## Readers that are cut off -/

/-- The first reader is cut off with a fault of this kind, where it may be, or both end alike, and
with no fault about the depth. -/
inductive CutOff {α : Type} (kind : FaultKind) (may : Prop) : Except Fault α → Except Fault α → Prop
  | cut {f : Fault} {y : Except Fault α} (hmay : may) (hkind : f.kind = kind) :
      CutOff kind may (.error f) y
  | ok (a : α) : CutOff kind may (.ok a) (.ok a)
  | fault {f : Fault} (h : f.Shallow) : CutOff kind may (.error f) (.error f)

variable {α β : Type} {kind : FaultKind} {may : Prop}

theorem CutOff.mono {may' : Prop} {x y : Except Fault α} (h : CutOff kind may x y)
    (hmay : may → may') : CutOff kind may' x y := by
  cases h with
  | cut h hkind => exact .cut (hmay h) hkind
  | ok a => exact .ok a
  | fault h => exact .fault h

theorem CutOff.bind {x y : Except Fault α} {f g : α → Except Fault β} (h : CutOff kind may x y)
    (hfg : ∀ a, CutOff kind may (f a) (g a)) : CutOff kind may (x >>= f) (y >>= g) := by
  cases h with
  | cut h hkind => exact .cut h hkind
  | ok a => exact hfg a
  | fault h => exact .fault h

/-- A reader that asks for no level is not cut off. -/
theorem cutOff_self {x : Except Fault α} (h : ∀ f, x = .error f → f.Shallow) :
    CutOff kind may x x := by
  cases x with
  | error f => exact .fault (h f rfl)
  | ok a => exact .ok a

theorem shallow_unexpected (expected : Expected) (ts : List Token) :
    (unexpected expected ts).Shallow := fun _ _ h => nomatch h

theorem cutOff_symbol (s : String) (ts : List Token) :
    CutOff kind may (symbol s ts) (symbol s ts) := by
  refine cutOff_self fun f hf => ?_
  cases ts with
  | nil =>
    cases hf
    exact shallow_unexpected _ _
  | cons t rest =>
    simp only [symbol] at hf
    split at hf
    · cases hf
    · cases hf
      exact shallow_unexpected _ _

theorem cutOff_contents (t : Token) : CutOff kind may (contents t) (contents t) := by
  refine cutOff_self fun f hf => ?_
  unfold contents at hf
  split at hf
  · cases hf
  · cases hf
    exact fun _ _ h => nomatch h

theorem cutOff_relative (dots : Token) (ts : List Token) :
    CutOff kind may (relative dots ts) (relative dots ts) := by
  refine cutOff_self fun f hf => ?_
  cases ts with
  | nil =>
    cases hf
    exact shallow_unexpected _ _
  | cons t rest =>
    simp only [relative] at hf
    split at hf
    · cases hf
    · cases hf
      exact shallow_unexpected _ _

/-! ## Lists with commas -/

theorem cutOff_delimited {m : Nat} {item item' : Parser α} (close : String)
    (hitem : ∀ ts, CutOff kind (m < ts.length) (item ts) (item' ts)) (ts : List Token) :
    CutOff kind (m < ts.length) (delimited close item ts) (delimited close item' ts) := by
  unfold delimited
  by_cases hclose : (peek ts).isSymbol close = true
  · simp only [hclose, if_true]
    exact .ok _
  simp only [hclose]
  have h := hitem ts
  generalize item ts = x, item' ts = y at h ⊢
  cases h with
  | cut hmay hkind => exact .cut hmay hkind
  | fault h => exact .fault h
  | ok a =>
    obtain ⟨first, _ | ⟨t, rest⟩, shorter⟩ := a
    · exact .ok _
    by_cases hcomma : t.isSymbol "," = true
    · simp only [hcomma, if_true]
      have hlt : rest.length < ts.length := Nat.lt_of_succ_lt shorter
      have h := (cutOff_delimited close hitem rest).mono fun hm => Nat.lt_trans hm hlt
      generalize delimited close item rest = x, delimited close item' rest = y at h ⊢
      cases h with
      | cut hmay hkind => exact .cut hmay hkind
      | fault h => exact .fault h
      | ok a => exact .ok _
    · simp only [hcomma]
      exact .ok _
  termination_by ts.length
  decreasing_by exact hlt

/-! ## One level of nesting -/

end Grammar

/-- Each reader of the first grammar is cut off with the fault, where there are more tokens than so
many, or ends as the one of the second grammar. -/
structure Grammar.CutsOff (kind : FaultKind) (m : Nat) (g g' : Grammar) : Prop where
  expression (ts : List Token) :
    Grammar.CutOff kind (m < ts.length) (g.expression ts) (g'.expression ts)
  unary (ts : List Token) : Grammar.CutOff kind (m < ts.length) (g.unary ts) (g'.unary ts)
  chain (ts : List Token) : Grammar.CutOff kind (m < ts.length) (g.chain ts) (g'.chain ts)

namespace Grammar

/-- There is no level inside, which is the fault, or one that is cut off after so many tokens. -/
inductive InsideCutsOff (kind : FaultKind) : Nat → Inside → Inside → Prop
  | none {inside : Inside} (inside' : Inside)
      (h : ∀ ts, ∃ f, inside ts = .error f ∧ f.kind = kind) :
      InsideCutsOff kind 0 inside inside'
  | some {m : Nat} {g g' : Grammar} (h : CutsOff kind m g g') :
      InsideCutsOff kind (m + 1) (fun _ => .ok g) (fun _ => .ok g')

section

variable {m : Nat} {g g' : Grammar} (hg : CutsOff kind m g g')

include hg

theorem CutsOff.group (t : Token) (ts : List Token) :
    CutOff kind (m < ts.length) (g.group t ts) (g'.group t ts) := by
  unfold Grammar.group
  split
  · next hhead =>
    have hlt := lambdaHead_shorter hhead
    exact ((hg.expression _).mono fun hm => Nat.lt_trans hm hlt).bind fun _ => .ok _
  · exact (hg.expression ts).bind fun _ => (cutOff_symbol ")" _).bind fun _ => .ok _

theorem CutsOff.array (t : Token) (ts : List Token) :
    CutOff kind (m < ts.length) (g.array t ts) (g'.array t ts) := by
  unfold Grammar.array
  exact (cutOff_delimited "]" hg.expression ts).bind fun _ =>
    (cutOff_symbol "]" _).bind fun _ => .ok _

theorem CutsOff.property (key : String) (ts : List Token) :
    CutOff kind (m < ts.length) (g.property key ts) (g'.property key ts) := by
  unfold Grammar.property
  refine (cutOff_symbol ":" ts).bind fun a => ?_
  exact ((hg.expression a.rest).mono fun hm => Nat.lt_trans hm a.shorter).bind fun _ => .ok _

theorem CutsOff.member (ts : List Token) :
    CutOff kind (m < ts.length) (g.member ts) (g'.member ts) := by
  cases ts with
  | nil => exact .fault (shallow_unexpected _ _)
  | cons t rest =>
    have hproperty : ∀ key, CutOff kind (m < (t :: rest).length) (g.property key rest)
        (g'.property key rest) := fun key =>
      (hg.property key rest).mono fun hm => Nat.lt_succ_of_lt hm
    simp only [Grammar.member]
    split
    · split
      · exact (hg.chain _).bind fun _ => .ok _
      · exact hproperty _
    · exact (cutOff_contents t).bind fun key => hproperty key
    · exact (cutOff_contents t).bind fun key => hproperty key
    · exact .fault (shallow_unexpected _ _)

theorem CutsOff.object (t : Token) (ts : List Token) :
    CutOff kind (m < ts.length) (g.object t ts) (g'.object t ts) := by
  unfold Grammar.object
  exact (cutOff_delimited "\x7d" hg.member ts).bind fun _ =>
    (cutOff_symbol "\x7d" _).bind fun _ => .ok _

end

section

variable {m : Nat} {inside inside' : Inside} (hi : InsideCutsOff kind m inside inside')

include hi

/-- A reader of the level inside, at tokens after a first one. -/
theorem InsideCutsOff.bind {ts rest : List Token} (us : List Token) (hlt : rest.length < ts.length)
    {f : Grammar → Except Fault α}
    (hf : ∀ m g g', CutsOff kind m g g' → CutOff kind (m < rest.length) (f g) (f g')) :
    CutOff kind (m < ts.length) (inside us >>= f) (inside' us >>= f) := by
  cases hi with
  | none inside' h =>
    obtain ⟨e, he, hkind⟩ := h us
    rw [he]
    exact .cut (Nat.zero_lt_of_lt hlt) hkind
  | some h => exact (hf _ _ _ h).mono fun hm => Nat.lt_of_le_of_lt hm hlt

theorem cutOff_primary (ts : List Token) :
    CutOff kind (m < ts.length) (primary inside ts) (primary inside' ts) := by
  cases ts with
  | nil => exact .fault (shallow_unexpected _ _)
  | cons t rest =>
    have hlt : rest.length < (t :: rest).length := Nat.lt_succ_self _
    simp only [primary]
    split
    · exact .ok _
    · exact (cutOff_contents t).bind fun _ => .ok _
    · exact (cutOff_contents t).bind fun _ => .ok _
    · exact .ok _
    · exact .ok _
    · exact cutOff_relative t rest
    · split
      · exact hi.bind _ hlt fun _ _ _ hg => hg.group t rest
      split
      · exact hi.bind _ hlt fun _ _ _ hg => hg.array t rest
      split
      · exact hi.bind _ hlt fun _ _ _ hg => hg.object t rest
      · exact .fault (shallow_unexpected _ _)
    · exact .fault (shallow_unexpected _ _)

theorem cutOff_calls (callee : Expr) (ts : List Token) :
    CutOff kind (m < ts.length) (calls inside callee ts) (calls inside' callee ts) := by
  unfold calls
  cases ts with
  | nil => exact .ok _
  | cons t rest =>
    by_cases hopen : t.isSymbol "(" = true ∧ callee.isCallable = true
    case neg =>
      simp only [hopen, if_false]
      exact .ok _
    have ih : ∀ (callee : Expr) (left : List Token), left.length < (t :: rest).length →
        CutOff kind (m < left.length) (calls inside callee left) (calls inside' callee left) :=
      fun callee left hlt => cutOff_calls callee left
    simp only [hopen, and_self, if_true]
    cases hi with
    | none inside' h =>
      obtain ⟨e, he, hkind⟩ := h rest
      simp only [he]
      exact .cut (Nat.zero_lt_succ _) hkind
    | @some m g g' hg =>
      have hargs := cutOff_delimited ")" hg.expression rest
      dsimp only
      generalize delimited ")" g.expression rest = x,
        delimited ")" g'.expression rest = y at hargs ⊢
      cases hargs with
      | cut hmay hkind => exact .cut (Nat.succ_lt_succ hmay) hkind
      | fault h => exact .fault h
      | ok a =>
        obtain ⟨args, after, shorter⟩ := a
        have hclose : CutOff kind False (symbol ")" after) (symbol ")" after) :=
          cutOff_symbol ")" after
        dsimp only
        generalize symbol ")" after = x at hclose ⊢
        cases hclose with
        | cut hmay => exact hmay.elim
        | fault h => exact .fault h
        | ok b =>
          obtain ⟨close, left, shorter'⟩ := b
          have hlt : left.length < (t :: rest).length := by
            simp only [List.length_cons]
            omega
          have hmore := (ih (.call (callee.span.through close) callee args) left hlt).mono
            fun hm => Nat.lt_trans hm hlt
          dsimp only
          generalize
            calls (fun _ => .ok g) (.call (callee.span.through close) callee args) left = x,
            calls (fun _ => .ok g') (.call (callee.span.through close) callee args) left = y
            at hmore ⊢
          cases hmore with
          | cut hmay hkind => exact .cut hmay hkind
          | fault h => exact .fault h
          | ok a => exact .ok _
  termination_by ts.length
  decreasing_by exact hlt

theorem cutOff_callChain (ts : List Token) :
    CutOff kind (m < ts.length) (callChain inside ts) (callChain inside' ts) := by
  unfold callChain
  refine (cutOff_primary hi ts).bind fun a => ?_
  exact ((cutOff_calls hi a.value a.rest).mono fun hm => Nat.lt_trans hm a.shorter).bind
    fun _ => .ok _

theorem cutOff_operand (ts : List Token) :
    CutOff kind (m < ts.length) (operand inside ts) (operand inside' ts) := by
  cases ts with
  | nil => exact cutOff_callChain hi []
  | cons t rest =>
    simp only [operand]
    split
    · exact hi.bind rest (Nat.lt_succ_self _) fun _ _ _ hg => (hg.unary rest).bind fun _ => .ok _
    · exact cutOff_callChain hi (t :: rest)

end

section

variable {m : Nat} {atom atom' : Parser Expr}

mutual

theorem cutOff_climbFrom
    (hatom : ∀ ts, CutOff kind (m < ts.length) (atom ts) (atom' ts)) (least : Nat) (left : Expr)
    (ts : List Token) :
    CutOff kind (m < ts.length) (climbFrom atom least left ts) (climbFrom atom' least left ts) := by
  unfold climbFrom
  cases ts with
  | nil => exact .ok _
  | cons t rest =>
    dsimp only
    split
    · exact .ok _
    next op hop =>
    split
    · exact .ok _
    have h := (cutOff_climb hatom (op.precedence + 1) rest).mono fun hm => Nat.lt_succ_of_lt hm
    generalize climb atom (op.precedence + 1) rest = x,
      climb atom' (op.precedence + 1) rest = y at h ⊢
    cases h with
    | cut hmay hkind => exact .cut hmay hkind
    | fault h => exact .fault h
    | ok a =>
      obtain ⟨right, after, shorter⟩ := a
      have hlt : after.length < (t :: rest).length := Nat.lt_succ_of_lt shorter
      have h := (cutOff_climbFrom hatom least (.binary (left.span.through right.span) op left right)
        after).mono fun hm => Nat.lt_trans hm hlt
      dsimp only
      generalize
        climbFrom atom least (.binary (left.span.through right.span) op left right) after = x,
        climbFrom atom' least (.binary (left.span.through right.span) op left right) after = y
        at h ⊢
      cases h with
      | cut hmay hkind => exact .cut hmay hkind
      | fault h => exact .fault h
      | ok a => exact .ok _
  termination_by ts.length

theorem cutOff_climb (hatom : ∀ ts, CutOff kind (m < ts.length) (atom ts) (atom' ts)) (least : Nat)
    (ts : List Token) :
    CutOff kind (m < ts.length) (climb atom least ts) (climb atom' least ts) := by
  unfold climb
  have h := hatom ts
  generalize atom ts = x, atom' ts = y at h ⊢
  cases h with
  | cut hmay hkind => exact .cut hmay hkind
  | fault h => exact .fault h
  | ok a =>
    obtain ⟨left, rest, shorter⟩ := a
    have h := (cutOff_climbFrom hatom least left rest).mono fun hm => Nat.lt_trans hm shorter
    dsimp only
    generalize climbFrom atom least left rest = x, climbFrom atom' least left rest = y at h ⊢
    cases h with
    | cut hmay hkind => exact .cut hmay hkind
    | fault h => exact .fault h
    | ok a => exact .ok _
  termination_by ts.length

end

end

/-! ## All levels -/

theorem cutsOff_ofInside {m : Nat} {inside inside' : Inside}
    (hi : InsideCutsOff kind m inside inside') :
    CutsOff kind m (ofInside inside) (ofInside inside') where
  expression := cutOff_climb (cutOff_operand hi) 0
  unary := cutOff_operand hi
  chain := cutOff_callChain hi

/-- There is no level below the last one. -/
theorem insideCutsOff_tooDeep (limit depth : Nat) (inside' : Inside) :
    InsideCutsOff (.tooDeep (depth + 1) limit) 0 (tooDeep limit depth) inside' :=
  .none inside' fun _ => ⟨_, rfl, rfl⟩

/-- With one level more the same is read, unless the last level has been passed. -/
theorem cutsOff_levels {limit n depth : Nat} (hlimit : n + depth = limit) :
    CutsOff (.tooDeep (limit + 1) limit) n (levels limit n depth)
      (levels (limit + 1) (n + 1) depth) := by
  induction n generalizing depth with
  | zero =>
    obtain rfl : depth = limit := by omega
    exact cutsOff_ofInside (insideCutsOff_tooDeep depth depth _)
  | succ n ih => exact cutsOff_ofInside (.some (ih (by omega)))

theorem cutOff_parseTokens (limit : Nat) (ts : List Token) :
    CutOff (.tooDeep (limit + 1) limit) (limit < ts.length) (parseTokens limit ts)
      (parseTokens (limit + 1) ts) := by
  unfold parseTokens
  refine ((cutsOff_levels (Nat.add_zero limit)).expression ts).bind fun a => ?_
  obtain ⟨value, rest, shorter⟩ := a
  dsimp only
  split
  · exact .ok _
  · exact .fault (shallow_unexpected _ _)

/-! ## The threshold -/

/-- The limit cuts reading off. -/
def IsCut (ts : List Token) (limit : Nat) : Prop :=
  ∃ f, parseTokens limit ts = .error f ∧ f.kind = .tooDeep (limit + 1) limit

/-- Where the limit does not cut reading off, nothing is at fault with the depth, and the next limit
changes nothing. -/
theorem settled_of_not_isCut {ts : List Token} {limit : Nat} (h : ¬ IsCut ts limit) :
    (∀ f, parseTokens limit ts = .error f → f.Shallow) ∧
      parseTokens (limit + 1) ts = parseTokens limit ts := by
  have hcut := cutOff_parseTokens limit ts
  unfold IsCut at h
  generalize parseTokens limit ts = x, parseTokens (limit + 1) ts = y at h hcut ⊢
  cases hcut with
  | cut hmay hkind => exact (h ⟨_, rfl, hkind⟩).elim
  | ok a => exact ⟨fun f hf => (nomatch hf), rfl⟩
  | fault hshallow =>
    refine ⟨fun f hf => ?_, rfl⟩
    cases hf
    exact hshallow

/-- As many levels as tokens are enough. -/
theorem not_isCut_length (ts : List Token) : ¬ IsCut ts ts.length := by
  rintro ⟨f, hf, hkind⟩
  have hcut := cutOff_parseTokens ts.length ts
  rw [hf] at hcut
  generalize parseTokens (ts.length + 1) ts = y at hcut
  cases hcut with
  | cut hmay => exact absurd hmay (Nat.lt_irrefl _)
  | fault hshallow => exact hshallow _ _ hkind

theorem not_isCut_of_le {ts : List Token} {limit limit' : Nat} (h : ¬ IsCut ts limit)
    (hle : limit ≤ limit') : ¬ IsCut ts limit' ∧ parseTokens limit' ts = parseTokens limit ts := by
  induction hle with
  | refl => exact ⟨h, rfl⟩
  | step hle ih =>
    obtain ⟨hnot, hsame⟩ := ih
    obtain ⟨hshallow, hnext⟩ := settled_of_not_isCut hnot
    refine ⟨?_, hnext.trans hsame⟩
    rintro ⟨f, hf, hkind⟩
    exact hshallow f (hnext ▸ hf) _ _ hkind

/-- Reading asks for no level inside: whatever is inside, the same is read. -/
def NeverNests (ts : List Token) : Prop :=
  ∀ inside inside' : Inside, (ofInside inside).expression ts = (ofInside inside').expression ts

/-- What does not nest is read without any level inside, and nothing else is. -/
theorem not_isCut_zero_iff {ts : List Token} : ¬ IsCut ts 0 ↔ NeverNests ts := by
  have hread : ∀ (limit : Nat) (inside' : Inside), CutOff (.tooDeep 1 limit) (0 < ts.length)
      ((ofInside (tooDeep limit 0)).expression ts) ((ofInside inside').expression ts) :=
    fun limit inside' => (cutsOff_ofInside (insideCutsOff_tooDeep limit 0 inside')).expression ts
  have hzero : parseTokens 0 ts = (ofInside (tooDeep 0 0)).expression ts >>= fun a =>
      if (peek a.rest).kind = .eof then .ok a.value else .error (unexpected .endOfInput a.rest) :=
        rfl
  constructor
  · intro h
    have hsame : ∀ inside' : Inside,
        (ofInside (tooDeep 0 0)).expression ts = (ofInside inside').expression ts := by
      intro inside'
      have hcut := hread 0 inside'
      unfold IsCut at h
      rw [hzero] at h
      generalize (ofInside (tooDeep 0 0)).expression ts = x,
        (ofInside inside').expression ts = y at h hcut ⊢
      cases hcut with
      | cut hmay hkind => exact (h ⟨_, rfl, hkind⟩).elim
      | ok a => rfl
      | fault hshallow => rfl
    exact fun inside inside' => (hsame inside).symm.trans (hsame inside')
  · rintro h ⟨f, hf, hkind⟩
    -- With another limit the fault would be another one.
    have hcut := hread 1 (tooDeep 0 0)
    rw [h (tooDeep 1 0) (tooDeep 0 0)] at hcut
    rw [hzero] at hf
    generalize (ofInside (tooDeep 0 0)).expression ts = x at hf hcut
    cases x with
    | error f' =>
      cases hf
      cases hcut with
      | cut hmay hkind' =>
        rw [hkind] at hkind'
        cases hkind'
      | fault hshallow => exact hshallow _ _ hkind
    | ok a =>
      simp only [bind, Except.bind] at hf
      split at hf
      · cases hf
      · cases hf
        cases hkind

/-- Below some limit every limit cuts reading off, and from there on they all read the same. -/
theorem exists_threshold (ts : List Token) :
    ∃ N, (N = 0 ↔ NeverNests ts) ∧ (∀ d < N, IsCut ts d) ∧
      (∀ d, N ≤ d → parseTokens d ts = parseTokens N ts) ∧
      ∀ f, parseTokens N ts = .error f → f.Shallow := by
  classical
  have hexists : ∃ d, ¬ IsCut ts d := ⟨ts.length, not_isCut_length ts⟩
  have hfound := Nat.find_spec hexists
  refine ⟨Nat.find hexists, ?_, fun d hd => ?_, fun d hd => (not_isCut_of_le hfound hd).2,
    (settled_of_not_isCut hfound).1⟩
  · rw [Nat.find_eq_zero, not_isCut_zero_iff]
  · exact not_not.mp (Nat.find_min hexists hd)

end Grammar

end LazyConfig
